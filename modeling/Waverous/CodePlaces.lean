import Waverous.CodeChains
import Waverous.CodeInsns

/-! # Where the code of a program comes to stand — `code_gen.c`

    What the generator puts for an expression or a statement stands in the vector as the tree
    says: each function is followed once, with the labels that it has made. -/

namespace Waverous

open Links

/-! ## What a vector can hold -/

/-- How many targets are for the rest. -/
def Scatter.rests : Scatter → Nat
  | .nil => 0
  | .cons kind _ _ next => next.rests + if kind = .rest then 1 else 0

mutual

/-- The literals can be told from each other, and the numbers that are put into a byte fit. -/
def Expr.Plain : Expr → Prop
  | .var v => v.PlainLiteral
  | .id _ | .length => True
  | .and lhs rhs | .or lhs rhs | .binary _ lhs rhs | .prop lhs rhs | .index lhs rhs | .asgn lhs rhs =>
      lhs.Plain ∧ rhs.Plain
  | .negate e | .not e => e.Plain
  | .range base «from» «to» => base.Plain ∧ «from».Plain ∧ «to».Plain
  | .list args => args.Plain
  | .call func args => func < 256 ∧ args.Plain
  | .verb obj verb args => obj.Plain ∧ verb.Plain ∧ args.Plain
  | .cond condition consequent alternate => condition.Plain ∧ consequent.Plain ∧ alternate.Plain
  | .catch e codes except => e.Plain ∧ codes.Plain ∧ defaultPlain except
  | .scatter sc => sc.nargs < 255 ∧ sc.rests ≤ 1 ∧ sc.Plain

def defaultPlain : Option Expr → Prop
  | none => True
  | some e => e.Plain

def ArgList.Plain : ArgList → Prop
  | .nil => True
  | .cons _ e next => e.Plain ∧ next.Plain

def Scatter.Plain : Scatter → Prop
  | .nil => True
  | .cons _ _ default next => defaultPlain default ∧ next.Plain

end

mutual

/-- The same, of a statement; there is no `fork`. -/
def Stmt.Plain : Stmt → Prop
  | .cond arms otherwise => arms.Plain ∧ otherwise.Plain
  | .list _ e body | .while _ e body => e.Plain ∧ body.Plain
  | .range _ «from» «to» body => «from».Plain ∧ «to».Plain ∧ body.Plain
  | .fork _ _ _ => False
  | .expr e => e.Plain
  | .return e => defaultPlain e
  | .tryExcept body excepts => body.Plain ∧ excepts.count < 256 ∧ excepts.Plain
  | .tryFinally body handler => body.Plain ∧ handler.Plain
  | .break _ | .continue _ => True

def StmtList.Plain : StmtList → Prop
  | .nil => True
  | .cons stmt next => stmt.Plain ∧ next.Plain

def CondArm.Plain : CondArm → Prop
  | .nil => True
  | .cons e stmts next => e.Plain ∧ stmts.Plain ∧ next.Plain

def ExceptArm.Plain : ExceptArm → Prop
  | .nil => True
  | .cons _ codes stmts next => codes.Plain ∧ stmts.Plain ∧ next.Plain

end

variable {fin : GenState} {bc : Bytecodes} {lits : List Var} {L : List Nat} {v : Int × Int}
  {c d saved : Int} {l : Nat}

/-! ## Expressions -/

theorem puts_emitVarOp (hfin : Finished fin bc) (op : Opcode) (slot : Nat) :
    Puts fin bc lits v L (emitVarOp op slot) v (fun _ => L) fun _ _ => varOpAt bc op slot := by
  unfold emitVarOp varOpAt
  split
  · exact (puts_emitByte hfin _).pair (puts_addVarRef hfin slot)
  · exact puts_emitByte hfin _

theorem BinaryKind.puts_emit (hfin : Finished fin bc) (kind : BinaryKind) :
    Puts fin bc lits v L kind.emit v (fun _ => L) fun _ _ => kind.codeAt bc := by
  cases kind with
  | exp => exact puts_emitExtended hfin .exp
  | _ => exact puts_emitOp hfin _

theorem puts_generateVar (hfin : Finished fin bc) {w : Var} (hw : w.PlainLiteral) :
    Puts fin bc lits (c, saved) L (generateVar w) (c + 1, saved) (fun _ => L)
      fun _ _ => literalCode bc lits w := by
  have hliteral : Puts fin bc lits (c, saved) L (do emitOp .imm; addLiteral w) (c, saved) (fun _ => L)
      fun _ _ => .all [opAt bc .imm, literalAt bc lits w] :=
    (puts_emitOp hfin .imm).pair (puts_addLiteral hfin hw)
  have hemit : Puts fin bc lits (c, saved) L (generateVar.emitVar w) (c, saved) (fun _ => L)
      fun _ _ => literalCode bc lits w := by
    cases w with
    | int num =>
        by_cases hnum : inOptimNumRange num.toInt = true
        · rw [show generateVar.emitVar (.int num) = emitByte (optimNumToOpcode num.toInt) from if_pos hnum,
            show literalCode bc lits (.int num) = numberAt bc num.toInt from if_pos hnum]
          exact puts_emitByte hfin _
        · rw [show generateVar.emitVar (.int num) = (do emitOp .imm; addLiteral (.int num)) from if_neg hnum,
            show literalCode bc lits (.int num) = .all [opAt bc .imm, literalAt bc lits (.int num)] from
              if_neg hnum]
          exact hliteral
    | _ => exact hliteral
  refine (hemit.seq (puts_pushStack (d := c + 1) 1 rfl)).mono ?_
  rintro _ _ _ _ ⟨p, hcode, rfl⟩
  exact hcode

theorem puts_emitArg (hfin : Finished fin bc) (first : Bool) (kind : ArgKind) :
    Puts fin bc lits v L (emitArg first kind) v (fun _ => L) fun _ _ => argCode bc first kind := by
  cases kind with
  | normal | splice => exact puts_emitOp hfin _

theorem puts_putLvalue (hfin : Finished fin bc) {dollar : Bool} : ∀ {e : Expr}, e.Target dollar → ∀ {c : Int},
    Puts fin bc lits (c + e.cells, saved) L (putLvalue e) (c, saved) (fun _ => L) fun _ _ => putCode bc e
  | .id i, .id, c => by
      rw [show c + (Expr.id i).cells = c from Int.add_zero c]
      exact puts_emitVarOp hfin .put i
  | .prop _ _, .prop _ _, c => by
      refine ((puts_emitOp hfin .putProp).seq (puts_popStack 2 rfl)).mono ?_
      rintro _ _ _ _ ⟨p, hop, rfl⟩
      exact hop
  | .index lhs _, .index hlhs _, c => by
      have hdepth : c + (lhs.cells + 2) = c + lhs.cells + 2 := by omega
      exact (puts_emitOp hfin .indexset).pair ((puts_popStack 2 hdepth).silent (puts_putLvalue hfin hlhs))

theorem puts_whenIndexed (e : Expr) {emit : Gen Unit} {code : Stretch}
    (h : Puts fin bc lits v L emit v (fun _ => L) fun _ _ => code) :
    Puts fin bc lits v L (whenIndexed e emit) v (fun _ => L) fun _ _ => .when (e.isIndexed = true) code := by
  have hnone : Puts fin bc lits v L (pure ()) v (fun _ => L) fun _ _ => noCode :=
    (puts_pure (A := fun _ => L)).mono fun _ _ _ _ hpure => hpure.2
  cases e with
  | range base from' to' | index lhs rhs => exact h
  | _ => exact hnone

theorem stands_asgn {e rhs : Expr} (hne : ∀ sc, e ≠ .scatter sc) :
    (Expr.asgn e rhs).stands bc lits saved c = .all
      [e.targetStands bc lits false saved c, rhs.stands bc lits saved (c + e.cells),
        .when (e.isIndexed = true) (opAt bc .putTemp), putCode bc e,
        .when (e.isIndexed = true) (.all [opAt bc .pop, opAt bc .pushTemp])] := by
  cases e with
  | scatter sc => exact absurd rfl (hne sc)
  | _ => rw [Expr.stands]; exact hne

/-- An assignment to anything but a pattern. -/
theorem puts_asgn (hfin : Finished fin bc) {e rhs : Expr} (hne : ∀ sc, e ≠ .scatter sc)
    (hpush : Puts fin bc lits (c, saved) L (pushLvalue e false) (c + e.cells, saved) (fun _ => L)
      fun _ _ => e.targetStands bc lits false saved c)
    (hrhs : Puts fin bc lits (c + e.cells, saved) L (generateExpr rhs) (c + e.cells + 1, saved) (fun _ => L)
      fun _ _ => rhs.stands bc lits saved (c + e.cells))
    (hput : Puts fin bc lits (c + 1 + e.cells, saved) L (putLvalue e) (c + 1, saved) (fun _ => L)
      fun _ _ => putCode bc e) :
    Puts fin bc lits (c, saved) L (generateExpr (.asgn e rhs)) (c + 1, saved) (fun _ => L)
      fun _ _ => (Expr.asgn e rhs).stands bc lits saved c := by
  have hdepth : (c + e.cells + 1, saved) = (c + 1 + e.cells, saved) := by
    congr 1
    omega
  rw [generateExpr_asgn hne]
  refine (hpush.seq (hrhs.seq (Puts.to (puts_whenIndexed e (puts_emitOp hfin .putTemp)) hdepth |>.seq
    (hput.seq (puts_whenIndexed e ((puts_emitOp hfin .pop).pair (puts_emitOp hfin .pushTemp))))))).mono ?_
  rintro _ _ pc pc' ⟨p1, htarget, p2, hvalue, p3, htemp, p4, hputs, hlast⟩
  rw [stands_asgn hne]
  exact ⟨p1, htarget, p2, hvalue, p3, htemp, p4, hputs, pc', hlast, rfl⟩

/-! ### Patterns -/

theorem emitTargets_length : ∀ (sc : Scatter) {s s' : GenState} {labels : List Nat},
    emitTargets sc s = some (labels, s') → labels.length = sc.defaults
  | .nil, _, _, _, hrun => by
      cases hrun
      rfl
  | .cons kind _ default next, s, s', labels, hrun => by
      obtain ⟨_, s1, -, hrun⟩ := bind_eq_some hrun
      cases kind with
      | optional =>
          cases default with
          | some e =>
              obtain ⟨l, s2, -, hrun⟩ := bind_eq_some hrun
              obtain ⟨labels', s3, hnext, hrun⟩ := bind_eq_some hrun
              cases hrun
              exact congrArg (· + 1) (emitTargets_length next hnext)
          | none =>
              obtain ⟨_, s2, -, hrun⟩ := bind_eq_some hrun
              exact emitTargets_length next hrun
      | required | rest =>
          obtain ⟨_, s2, -, hrun⟩ := bind_eq_some hrun
          exact emitTargets_length next hrun

theorem puts_emitTargets (hfin : Finished fin bc) : ∀ (sc : Scatter) {L : List Nat},
    Puts fin bc lits v L (emitTargets sc) v (fun labels => labels ++ L)
      fun _ labels => targetsCode bc sc (labels.map (bc.goal fin))
  | .nil, L => (puts_pure (A := fun labels => labels ++ L) (a := [])).mono fun _ _ _ _ hpure => hpure.2
  | .cons kind i default next, L => by
      have hplain : ∀ value, Puts fin bc lits v L
          (do addVarRef i; addPseudoLabel value; emitTargets next) v (fun labels => labels ++ L)
          fun _ labels => .all
            [varRefAt bc i, labelAt bc value, targetsCode bc next (labels.map (bc.goal fin))] := by
        intro value
        refine ((puts_addVarRef hfin i).seq ((puts_addPseudoLabel hfin value).seq
          (puts_emitTargets hfin next))).mono ?_
        rintro _ _ pc pc' ⟨p, hslot, p', hlabel, hnext⟩
        exact ⟨p, hslot, p', hlabel, pc', hnext, rfl⟩
      cases kind with
      | optional =>
          cases default with
          | some e =>
              have hback : ∀ (l : Nat) (labels : List Nat), Puts fin bc lits v (labels ++ l :: L)
                  (pure (l :: labels)) v (fun labels => labels ++ L)
                  fun _ labels' pc pc' => labels' = l :: labels ∧ pc' = pc := fun l labels =>
                (puts_pure (A := fun labels => labels ++ L) (a := l :: labels)).reorder List.perm_middle
              refine ((puts_addVarRef hfin i).seq ((puts_addLabel hfin).bind fun l =>
                (puts_emitTargets hfin next).bind fun labels => hback l labels)).mono ?_
              rintro _ _ pc pc' ⟨p, hslot, l, p', hlabel, labels, p'', hnext, rfl, rfl⟩
              exact ⟨p, hslot, p', hlabel, pc', hnext, rfl⟩
          | none => exact hplain 1
      | required => exact hplain 0
      | rest => exact hplain 0

/-- `EOP_SCATTER` and its operands, but for the last label. -/
theorem puts_emitScatter (hfin : Finished fin bc) (sc : Scatter) :
    Puts fin bc lits v L (emitScatter sc) v (fun labels => labels ++ L) fun _ labels => .all
      [extendedAt bc .scatter, byteAt bc (UInt8.ofNat sc.nargs), byteAt bc (UInt8.ofNat sc.nreq),
        byteAt bc (UInt8.ofNat ((sc.rest 0 none).getD (sc.nargs + 1))),
        targetsCode bc sc (labels.map (bc.goal fin))] := by
  refine ((puts_emitExtended hfin .scatter).seq ((puts_emitByte hfin _).seq ((puts_emitByte hfin _).seq
    ((puts_emitByte hfin _).seq (puts_emitTargets hfin sc))))).mono ?_
  rintro _ _ pc pc' ⟨p1, hop, p2, hargs, p3, hreq, p4, hrest, htargets⟩
  exact ⟨p1, hop, p2, hargs, p3, hreq, p4, hrest, pc', htargets, rfl⟩

theorem emitScatter_length {sc : Scatter} {s s' : GenState} {labels : List Nat}
    (hrun : emitScatter sc s = some (labels, s')) : labels.length = sc.defaults := by
  obtain ⟨_, _, -, hrun⟩ := bind_eq_some hrun
  obtain ⟨_, _, -, hrun⟩ := bind_eq_some hrun
  obtain ⟨_, _, -, hrun⟩ := bind_eq_some hrun
  obtain ⟨_, _, -, hrun⟩ := bind_eq_some hrun
  exact emitTargets_length sc hrun

theorem puts_generateLength (hfin : Finished fin bc) :
    Puts fin bc lits (c, saved) L generateLength (c + 1, saved) (fun _ => L)
      fun _ _ => Expr.length.stands bc lits saved c := by
  refine .savedTop ?_
  split
  · exact puts_fail
  · refine ((puts_emitExtended hfin .length).seq ((puts_addStackRef hfin saved).seq
      (puts_pushStack 1 rfl))).mono ?_
    rintro _ _ pc pc' ⟨p, hop, p', hstack, rfl⟩
    exact ⟨p, hop, pc', hstack, rfl⟩

theorem puts_emitCodes (hfin : Finished fin bc) {codes : ArgList}
    (h : Puts fin bc lits (c, saved) L (generateArgList codes true) (c + 1, saved) (fun _ => L)
      fun _ _ => codes.stands bc lits true saved c) :
    Puts fin bc lits (c, saved) L (emitCodes codes (generateArgList codes true)) (c + 1, saved) (fun _ => L)
      fun _ _ => codes.handlerStands bc lits saved c := by
  cases codes with
  | nil =>
      refine ((puts_emitByte hfin (optimNumToOpcode 0)).seq (puts_pushStack 1 rfl)).mono ?_
      rintro _ _ pc pc' ⟨p, hop, rfl⟩
      exact hop
  | cons kind e next =>
      refine h.mono fun _ _ pc pc' hstands => ?_
      rw [ArgList.stands, if_pos rfl, Int.add_zero] at hstands
      exact hstands

/-! ### Trees -/

theorem puts_exceptNone (hfin : Finished fin bc) :
    Puts fin bc lits (c + 1, saved) L (generateExcept none) (c + 1, saved) (fun _ => L)
      fun _ _ => exceptStands bc lits none saved c :=
  (puts_emitByte hfin (optimNumToOpcode 1)).pair (puts_emitOp hfin .ref)

/-- What is pushed for a target that is to be indexed. -/
theorem puts_above {emit : Gen Unit} {code : Stretch} (above : Bool)
    (h : Puts fin bc lits (c, saved) L emit (c, saved) (fun _ => L) fun _ _ => code) :
    Puts fin bc lits (c, saved) L (if above then do emit; pushStack 1 else pure ())
      (c + if above then 1 else 0, saved) (fun _ => L) fun _ _ => .when (above = true) code := by
  cases above with
  | false =>
      exact Puts.to ((puts_pure (A := fun _ => L)).mono fun _ _ _ _ hpure => hpure.2) (by simp)
  | true =>
      refine (h.seq (puts_pushStack 1 rfl)).mono ?_
      rintro _ _ pc pc' ⟨p, hop, rfl⟩
      exact hop

/-- A `try` in an expression. -/
theorem puts_catch (hfin : Finished fin bc) {e : Expr} {codes : ArgList} {except : Option Expr}
    (hcodes : ∀ {L}, Puts fin bc lits (c, saved) L (generateArgList codes true)
      (c + 1, saved) (fun _ => L) fun _ _ => codes.stands bc lits true saved c)
    (he : ∀ {L c}, Puts fin bc lits (c, saved) L (generateExpr e) (c + 1, saved) (fun _ => L)
      fun _ _ => e.stands bc lits saved c)
    (hexcept : ∀ {L}, Puts fin bc lits (c + 1, saved) L (generateExcept except) (c + 1, saved) (fun _ => L)
      fun _ _ => exceptStands bc lits except saved c) :
    Puts fin bc lits (c, saved) L (generateExpr (.catch e codes except)) (c + 1, saved) (fun _ => L)
      fun _ _ => (Expr.catch e codes except).stands bc lits saved c := by
  have hpush : c + 3 = c + 1 + 1 + (1 : Nat) := by omega
  have hpop : c + 3 + 1 = c + 1 + (3 : Nat) := by omega
  refine ((puts_emitCodes hfin hcodes).seq ((puts_emitExtended hfin .pushLabel).seq
    ((puts_addLabel hfin).bind fun l => (puts_pushStack 1 rfl).silent ((puts_emitExtended hfin .catch).seq
      ((puts_pushStack 1 hpush).silent (he.seq ((puts_emitExtended hfin .endCatch).seq
        ((puts_addLabel hfin).bind fun l' => (puts_popStack 3 hpop).silent
          ((Puts.reorder (puts_define hfin) (.swap l l' L)).seq
            (hexcept.seq (puts_define hfin))))))))))).mono ?_
  rintro _ _ pc pc' ⟨p1, hc, p2, hop, l, p3, hl, p4, hcatch, p5, htry, p6, hend, l', p7, hl', p8, ⟨rfl, rfl⟩, p9,
    hex, rfl, rfl⟩
  exact ⟨_, p1, hc, p2, hop, p3, hl, p4, hcatch, p5, htry, p6, hend, _, hl', _, ⟨rfl, rfl⟩, _, hex, rfl⟩

mutual

/-- The code of a valid expression. -/
theorem Expr.Valid.puts (hfin : Finished fin bc) {dollar : Bool} : ∀ {e : Expr}, e.Valid dollar → e.Plain →
    ∀ {L : List Nat} {c saved : Int}, Puts fin bc lits (c, saved) L (generateExpr e) (c + 1, saved)
      (fun _ => L) fun _ _ => e.stands bc lits saved c
  | .var w, .var, hp, L, c, saved => puts_generateVar hfin hp
  | .id i, .id, _, L, c, saved => by
      refine ((puts_emitVarOp hfin .push i).seq (puts_pushStack 1 rfl)).mono ?_
      rintro _ _ _ _ ⟨p, hop, rfl⟩
      exact hop
  | .length, .length, _, L, c, saved => puts_generateLength hfin
  | .negate e, .negate he, hp, L, c, saved => (he.puts hfin hp).pair (puts_emitOp hfin .unaryMinus)
  | .not e, .not he, hp, L, c, saved => (he.puts hfin hp).pair (puts_emitOp hfin .not)
  | .and lhs rhs, .and hlhs hrhs, hp, L, c, saved => by
      refine ((hlhs.puts hfin hp.1).seq ((puts_emitOp hfin .and).seq ((puts_addLabel hfin).bind fun l =>
        (puts_popStack 1 rfl).silent ((hrhs.puts hfin hp.2).seq (puts_define hfin))))).mono ?_
      rintro _ _ pc pc' ⟨p1, hl, p2, hop, l, p3, hlabel, p4, hr, rfl, rfl⟩
      exact ⟨p1, hl, p2, hop, p3, hlabel, _, hr, rfl⟩
  | .or lhs rhs, .or hlhs hrhs, hp, L, c, saved => by
      refine ((hlhs.puts hfin hp.1).seq ((puts_emitOp hfin .or).seq ((puts_addLabel hfin).bind fun l =>
        (puts_popStack 1 rfl).silent ((hrhs.puts hfin hp.2).seq (puts_define hfin))))).mono ?_
      rintro _ _ pc pc' ⟨p1, hl, p2, hop, l, p3, hlabel, p4, hr, rfl, rfl⟩
      exact ⟨p1, hl, p2, hop, p3, hlabel, _, hr, rfl⟩
  | .binary kind lhs rhs, .binary hlhs hrhs, hp, L, c, saved => by
      refine ((hlhs.puts hfin hp.1).seq ((hrhs.puts hfin hp.2).seq ((kind.puts_emit hfin).seq
        (puts_popStack 1 rfl)))).mono ?_
      rintro _ _ pc pc' ⟨p1, hl, p2, hr, p3, hop, rfl⟩
      exact ⟨p1, hl, p2, hr, _, hop, rfl⟩
  | .prop lhs rhs, .prop hlhs hrhs, hp, L, c, saved => by
      refine ((hlhs.puts hfin hp.1).seq ((hrhs.puts hfin hp.2).seq ((puts_emitOp hfin .getProp).seq
        (puts_popStack 1 rfl)))).mono ?_
      rintro _ _ pc pc' ⟨p1, hl, p2, hr, p3, hop, rfl⟩
      exact ⟨p1, hl, p2, hr, _, hop, rfl⟩
  | .index lhs rhs, .index hlhs hrhs, hp, L, c, saved => by
      refine ((hlhs.puts hfin hp.1).seq (.save ((hrhs.puts hfin hp.2).seq (.restore
        ((puts_emitOp hfin .ref).seq (puts_popStack 1 rfl)))))).mono ?_
      rintro _ _ pc pc' ⟨p1, hl, p2, hr, p3, hop, rfl⟩
      rw [Int.add_sub_cancel] at hr
      exact ⟨p1, hl, p2, hr, _, hop, rfl⟩
  | .range base from' to', .range hbase hfrom hto, hp, L, c, saved => by
      have hdepth : c + 1 + 1 + 1 = c + 1 + (2 : Nat) := by omega
      refine ((hbase.puts hfin hp.1).seq (.save ((hfrom.puts hfin hp.2.1).seq ((hto.puts hfin hp.2.2).seq
        (.restore ((puts_emitOp hfin .rangeRef).seq (puts_popStack 2 hdepth))))))).mono ?_
      rintro _ _ pc pc' ⟨p1, hb, p2, hf, p3, ht, p4, hop, rfl⟩
      rw [Int.add_sub_cancel] at hf ht
      rw [Int.add_assoc] at ht
      exact ⟨p1, hb, p2, hf, p3, ht, _, hop, rfl⟩
  | .list args, .list hargs, hp, L, c, saved => hargs.puts hfin true hp
  | .call func args, .call hargs, hp, L, c, saved => by
      refine ((hargs.puts hfin true hp.2).seq ((puts_emitOp hfin .biFuncCall).seq
        (puts_emitByte hfin (UInt8.ofNat func)))).mono ?_
      rintro _ _ pc pc' ⟨p1, hargs, p2, hop, hfunc⟩
      exact ⟨p1, hargs, p2, hop, pc', hfunc, rfl⟩
  | .verb obj verb args, .verb hobj hverb hargs, hp, L, c, saved => by
      have hdepth : c + 1 + 1 + 1 = c + 1 + (2 : Nat) := by omega
      refine ((hobj.puts hfin hp.1).seq ((hverb.puts hfin hp.2.1).seq ((hargs.puts hfin true hp.2.2).seq
        ((puts_emitOp hfin .callVerb).seq (puts_popStack 2 hdepth))))).mono ?_
      rintro _ _ pc pc' ⟨p1, ho, p2, hv, p3, ha, p4, hop, rfl⟩
      rw [Int.add_assoc] at ha
      exact ⟨p1, ho, p2, hv, p3, ha, _, hop, rfl⟩
  | .cond e e' e'', .cond he he' he'', hp, L, c, saved => by
      refine ((he.puts hfin hp.1).seq ((puts_emitOp hfin .ifQues).seq ((puts_addLabel hfin).bind fun l =>
        (puts_popStack 1 rfl).silent ((he'.puts hfin hp.2.1).seq ((puts_emitOp hfin .jump).seq
          ((puts_addLabel hfin).bind fun l' => (puts_popStack 1 rfl).silent
            ((Puts.reorder (puts_define hfin) (.swap l l' L)).seq
              ((he''.puts hfin hp.2.2).seq (puts_define hfin))))))))).mono ?_
      rintro _ _ pc pc' ⟨p1, h1, p2, hop, l, p3, hl, p4, h2, p5, hjump, l', p6, hl', p7, ⟨rfl, rfl⟩, p8, h3, rfl, rfl⟩
      exact ⟨_, p1, h1, p2, hop, p3, hl, p4, h2, p5, hjump, _, hl', _, ⟨rfl, rfl⟩, _, h3, rfl⟩
  | .catch e codes none, .catch he hcodes, hp, L, c, saved =>
      puts_catch hfin (hcodes.puts hfin true hp.2.1) (he.puts hfin hp.1) (puts_exceptNone hfin)
  | .catch e codes (some e'), .catchDefault he hcodes he', hp, L, c, saved =>
      puts_catch hfin (hcodes.puts hfin true hp.2.1) (he.puts hfin hp.1)
        ((puts_emitOp hfin .pop).pair ((puts_popStack 1 rfl).silent (he'.puts hfin hp.2.2)))
  | .asgn lhs rhs, .asgn hlhs hrhs, hp, L, c, saved => by
      refine puts_asgn hfin hlhs.ne_scatter (Puts.to (hlhs.puts hfin false hp.1) ?_) (hrhs.puts hfin hp.2)
        (puts_putLvalue hfin hlhs)
      rw [if_neg Bool.false_ne_true, Int.add_zero]
  | .asgn (.range base from' to') rhs, .asgnRange hbase hfrom hto hrhs, hp, L, c, saved => by
      have hdepth : c + 1 + (Expr.range base from' to').cells = c + 1 + base.cells + 3 := by
        rw [Expr.cells]
        omega
      refine puts_asgn hfin (fun sc h => by cases h) ?_ (hrhs.puts hfin hp.2) ?_
      · have hto' : c + base.cells + 1 + 1 + 1 = c + (Expr.range base from' to').cells := by
          rw [Expr.cells]
          omega
        rw [← hto']
        refine ((hbase.puts hfin true hp.1.1).seq (.save ((hfrom.puts hfin hp.1.2.1).seq
          ((hto.puts hfin hp.1.2.2).seq (.restore (puts_pure (A := fun _ => L))))))).mono ?_
        rintro _ _ pc pc' ⟨p1, hb, p2, hf, p3, ht, -, rfl⟩
        simp only [if_true, Int.add_sub_cancel] at hf ht
        rw [Int.add_assoc (c + base.cells)] at ht
        exact ⟨p1, hb, p2, hf, _, ht, rfl⟩
      · rw [hdepth]
        exact (puts_emitExtended hfin .rangeset).pair ((puts_popStack 3 rfl).silent (puts_putLvalue hfin hbase))
  | .asgn (.scatter sc) rhs, .asgnScatter hsc hrhs, hp, L, c, saved => by
      refine ((hrhs.puts hfin hp.2).seq (Puts.knowing (K := fun labels => labels.length = sc.defaults)
        (puts_emitScatter hfin sc) (fun _ _ _ => emitScatter_length) fun labels hlen =>
          (puts_addLabel hfin).bind fun l =>
            (Puts.reorder (hsc.puts hfin hp.1.2.2 hlen) List.perm_middle.symm).seq (puts_define hfin))).mono ?_
      rintro _ _ pc pc' ⟨p1, hr, labels, p2, -, ⟨q1, hop, q2, hargs, q3, hreq, q4, hrest, q5, htargets, rfl⟩, l, p3, hl,
        p4, hdefaults, rfl, rfl⟩
      exact ⟨labels.map (bc.goal fin), p1, hr, p3,
        ⟨q1, hop, q2, hargs, q3, hreq, q4, hrest, _, htargets, p3, hl, rfl⟩, _, hdefaults, rfl⟩

/-- A target is prepared, and its value too if it is to be indexed. -/
theorem Expr.Target.puts (hfin : Finished fin bc) {dollar : Bool} : ∀ {e : Expr}, e.Target dollar →
    ∀ above : Bool, e.Plain → ∀ {L : List Nat} {c saved : Int},
    Puts fin bc lits (c, saved) L (pushLvalue e above) (c + e.cells + if above then 1 else 0, saved)
      (fun _ => L) fun _ _ => e.targetStands bc lits above saved c
  | .id i, .id, above, _, L, c, saved => by
      have hcells : c + (Expr.id i).cells = c := Int.add_zero c
      rw [hcells]
      exact puts_above above (puts_emitVarOp hfin .push i)
  | .prop lhs rhs, .prop hlhs hrhs, above, hp, L, c, saved => by
      have hcells : c + (Expr.prop lhs rhs).cells = c + 1 + 1 := by rw [Expr.cells]; omega
      rw [hcells]
      refine ((hlhs.puts hfin hp.1).seq ((hrhs.puts hfin hp.2).seq
        (puts_above above (puts_emitOp hfin .pushGetProp)))).mono ?_
      rintro _ _ pc pc' ⟨p1, hl, p2, hr, hop⟩
      exact ⟨p1, hl, p2, hr, pc', hop, rfl⟩
  | .index lhs rhs, .index hlhs hrhs, above, hp, L, c, saved => by
      have hcells : c + (Expr.index lhs rhs).cells = c + lhs.cells + 1 + 1 := by rw [Expr.cells]; omega
      rw [hcells]
      refine ((hlhs.puts hfin true hp.1).seq (.save ((hrhs.puts hfin hp.2).seq (.restore
        (puts_above above (puts_emitOp hfin .pushRef)))))).mono ?_
      rintro _ _ pc pc' ⟨p1, hl, p2, hr, hop⟩
      simp only [if_true, Int.add_sub_cancel] at hr
      exact ⟨p1, hl, p2, hr, pc', hop, rfl⟩

/-- Arguments leave one list, which is there after the first of them. -/
theorem ArgList.Valid.puts (hfin : Finished fin bc) {dollar : Bool} : ∀ {args : ArgList}, args.Valid dollar →
    ∀ first : Bool, args.Plain → ∀ {L : List Nat} {c saved : Int},
    Puts fin bc lits (if first then c else c + 1, saved) L (generateArgList args first) (c + 1, saved)
      (fun _ => L) fun _ _ => args.stands bc lits first saved c
  | .nil, .nil, first, _, L, c, saved => by
      cases first with
      | false => exact (puts_pure (A := fun _ => L)).mono fun _ _ _ _ hpure => hpure.2
      | true =>
          refine ((puts_emitOp hfin .makeEmptyList).seq (puts_pushStack 1 rfl)).mono ?_
          rintro _ _ pc pc' ⟨p, hop, rfl⟩
          exact hop
  | .cons kind e next, .cons he hnext, first, hp, L, c, saved => by
      cases first with
      | false =>
          refine ((he.puts hfin hp.1).seq ((puts_emitArg hfin false kind).seq
            ((puts_popStack 1 rfl).silent (hnext.puts hfin false hp.2)))).mono ?_
          rintro _ _ pc pc' ⟨p1, hstands, p2, harg, hrest⟩
          exact ⟨p1, hstands, p2, harg, pc', hrest, rfl⟩
      | true =>
          refine ((he.puts hfin hp.1).seq ((puts_emitArg hfin true kind).seq
            ((puts_popStack 0 (Int.add_zero _).symm).silent (hnext.puts hfin false hp.2)))).mono ?_
          rintro _ _ pc pc' ⟨p1, hstands, p2, harg, hrest⟩
          refine ⟨p1, ?_, p2, harg, pc', hrest, rfl⟩
          rw [if_pos rfl, Int.add_zero]
          exact hstands

/-- The defaults of a pattern, at the labels of its targets. -/
theorem Scatter.Valid.puts (hfin : Finished fin bc) {dollar : Bool} : ∀ {sc : Scatter}, sc.Valid dollar →
    sc.Plain → ∀ {labels : List Nat}, labels.length = sc.defaults → ∀ {L : List Nat} {c saved : Int},
    Puts fin bc lits (c, saved) (labels ++ L) (generateDefaults sc labels) (c, saved) (fun _ => L)
      fun _ _ => sc.stands bc lits (labels.map (bc.goal fin)) saved c
  | .nil, .nil, _, [], _, L, c, saved => (puts_pure (A := fun _ => L)).mono fun _ _ _ _ hpure => hpure.2
  | .cons kind i none next, .target hnext, hp, labels, hlen, L, c, saved => by
      cases kind with
      | optional | required | rest => exact hnext.puts hfin hp.2 hlen
  | .cons kind i (some e) next, .default he hnext, hp, labels, hlen, L, c, saved => by
      cases kind with
      | required => exact hnext.puts hfin hp.2 hlen
      | rest => exact hnext.puts hfin hp.2 hlen
      | optional =>
          cases labels with
          | nil => cases hlen
          | cons l labels =>
              refine ((puts_define hfin).seq ((he.puts hfin hp.1).seq ((puts_emitVarOp hfin .put i).seq
                ((puts_emitOp hfin .pop).seq ((puts_popStack 1 rfl).silent
                  (hnext.puts hfin hp.2 (Nat.succ.inj hlen))))))).mono ?_
              rintro _ _ pc pc' ⟨p1, ⟨rfl, rfl⟩, p2, hstands, p3, hput, p4, hpop, hrest⟩
              exact ⟨_, ⟨rfl, rfl⟩, p2, hstands, p3, hput, p4, hpop, pc', hrest, rfl⟩

end

/-! ## Leaving a loop -/

theorem puts_emitExit (hfin : Finished fin bc) (exit : Int) :
    Puts fin bc lits v L (emitExit exit) v (fun _ => L) fun _ _ => exitCode bc exit := by
  unfold emitExit exitCode
  split
  · exact puts_emitExtended hfin .exit
  · exact (puts_emitExtended hfin .exitId).pair (puts_addVarRef hfin exit.toNat)

/-- The loop that is left is the one that the tree names. -/
theorem leftLoop_of_exited {exit : Int} {loops : List Loop} {i : Nat} {loop : Loop}
    (hi : exitedLoop exit loops = some i) (hloop : loops[i]? = some loop) :
    leftLoop exit (loops.map (bc.loopPlace fin)) = some (bc.loopPlace fin loop) := by
  unfold exitedLoop at hi
  unfold leftLoop
  split at hi
  next hexit =>
    split at hi
    next => cases hi
    next =>
      cases hi
      rw [if_pos hexit, List.head?_map, List.head?_eq_getElem?, hloop]
      rfl
  next hexit =>
    rw [if_neg hexit, List.find?_map]
    obtain ⟨hlt, hid, hbefore⟩ := List.findIdx?_eq_some_iff_getElem.mp hi
    rw [List.getElem?_eq_getElem hlt] at hloop
    cases hloop
    have hfind : loops.find? (fun loop => decide (loop.id = exit)) = some loops[i] :=
      List.find?_eq_some_iff_getElem.mpr ⟨hid, i, hlt, rfl, fun j hj => by simpa using hbefore j hj⟩
    exact congrArg (Option.map (bc.loopPlace fin)) hfind

/-- `findExit`, with the loop that it gives. -/
theorem findExit_exited {exit : Int} {i : Nat} {loop : Loop} {s s' : GenState}
    (hrun : findExit exit s = some ((i, loop), s')) : exitedLoop exit s'.loops = some i := by
  obtain ⟨_, s1, hemit, hrun⟩ := bind_eq_some hrun
  obtain ⟨_, s2, hget, hrun⟩ := bind_eq_some hrun
  cases hget
  cases hi : exitedLoop exit s1.loops with
  | none =>
      simp only [hi] at hrun
      cases hrun
  | some j =>
      cases hj : s1.loops[j]? with
      | none =>
          simp only [hi, hj] at hrun
          cases hrun
      | some loop' =>
          simp only [hi, hj] at hrun
          cases hrun
          exact hi

theorem puts_continue (hfin : Finished fin bc) (exit : Int) :
    Puts fin bc lits v L (generateStmt (.continue exit)) v (fun _ => L)
      fun P _ => (Stmt.continue exit).stands bc lits P c := by
  intro s a s' hrun hv hown
  obtain ⟨⟨i, loop⟩, s1, hfind, hrun⟩ := bind_eq_some hrun
  obtain ⟨hemit, hloop⟩ := findExit_run hfind
  have hmem := List.mem_of_getElem? hloop
  obtain ⟨hv1, hown1, hback1⟩ := puts_emitExit hfin exit s () s1 hemit hv hown
  have hrest : Puts fin bc lits v L
      (do addStackRef loop.topStack; let _ ← addKnownLabel loop.topLabel; pure ()) v (fun _ => L)
      fun _ _ pc pc' => ∃ p, stackAt bc loop.topStack pc p ∧ ∃ _ : Nat, ∃ p',
        labelAt bc (bc.operandValue loop.topLabel) p p' ∧ () = () ∧ pc' = p' :=
    (puts_addStackRef hfin loop.topStack).seq ((puts_addKnownLabel hfin (hown1.neat.tidy.tops loop hmem)
      (hown1.neat.tops loop hmem)).bind fun _ => puts_pure (A := fun _ => L))
  obtain ⟨hv', hown', hback'⟩ := hrest s1 a s' hrun hv1 hown1
  refine ⟨hv', hown', fun hlater => ?_⟩
  obtain ⟨hlater1, hplaces1, p1, hstack, _, p2, hlabel, -, rfl⟩ := hback' hlater
  obtain ⟨hlater0, hplaces, hexit⟩ := hback1 hlater1
  refine ⟨hlater0, hplaces.trans hplaces1, bc.loopPlace fin loop, ?_,
    s1.place bc fin, hexit, p1, hstack, _, hlabel, rfl⟩
  rw [hplaces]
  exact leftLoop_of_exited (findExit_exited hfind) hloop

/-- The loops of a state, one of which is taken out. -/
theorem heads_modify {s : GenState} {i : Nat} {loop : Loop} (hloop : s.loops[i]? = some loop) :
    ∃ H : List Nat, (∀ L, (s.heads L).Perm (loop.bottomLabel.toList ++ (L ++ H))) ∧
      ∀ (L : List Nat) (l : Nat) (s' : GenState),
        s'.loops = s.loops.modify i (fun loop => { loop with bottomLabel := some l }) →
          (s'.heads L).Perm (l :: (L ++ H)) := by
  obtain ⟨hlt, hget⟩ := List.getElem?_eq_some_iff.mp hloop
  have hsplit : s.loops = s.loops.take i ++ loop :: s.loops.drop (i + 1) := by
    rw [← hget, ← List.drop_eq_getElem_cons hlt, List.take_append_drop]
  have hmodify : ∀ l, s.loops.modify i (fun loop => { loop with bottomLabel := some l }) =
      s.loops.take i ++ { loop with bottomLabel := some l } :: s.loops.drop (i + 1) := by
    intro l
    rw [List.modify_eq_take_cons_drop hlt, hget]
  refine ⟨(s.loops.take i).filterMap Loop.bottomLabel ++ (s.loops.drop (i + 1)).filterMap Loop.bottomLabel,
    fun L => ?_, fun L l s' hs' => ?_⟩
  · have hheads : s.heads L = L ++ ((s.loops.take i).filterMap Loop.bottomLabel ++
        (loop.bottomLabel.toList ++ (s.loops.drop (i + 1)).filterMap Loop.bottomLabel)) := by
      rw [GenState.heads]
      conv_lhs => rw [hsplit]
      rw [List.filterMap_append, List.filterMap_cons]
      cases loop.bottomLabel <;> rfl
    have hperm := List.perm_append_comm_assoc (L ++ (s.loops.take i).filterMap Loop.bottomLabel)
      loop.bottomLabel.toList ((s.loops.drop (i + 1)).filterMap Loop.bottomLabel)
    rw [hheads]
    simpa only [List.append_assoc] using hperm
  · have hheads : s'.heads L = L ++ ((s.loops.take i).filterMap Loop.bottomLabel ++
        l :: (s.loops.drop (i + 1)).filterMap Loop.bottomLabel) := by
      rw [GenState.heads, hs', hmodify, List.filterMap_append]
      rfl
    have hperm : (L ++ (s.loops.take i).filterMap Loop.bottomLabel ++
        l :: (s.loops.drop (i + 1)).filterMap Loop.bottomLabel).Perm
          (l :: (L ++ (s.loops.take i).filterMap Loop.bottomLabel ++
            (s.loops.drop (i + 1)).filterMap Loop.bottomLabel)) := List.perm_middle
    rw [hheads]
    simpa only [List.append_assoc] using hperm

/-- A loop keeps its place when its label is a new one of the same chain. -/
theorem places_modify {s s' : GenState} {i : Nat} {loop : Loop} (hloop : s.loops[i]? = some loop)
    (hloops : s'.loops = s.loops.modify i fun loop => { loop with bottomLabel := some l })
    (hgoal : bc.goal fin (loop.bottomLabel.getD 0) = bc.goal fin l) :
    bc.places fin s = bc.places fin s' := by
  rw [Bytecodes.places, Bytecodes.places, hloops]
  refine List.ext_getElem? fun j => ?_
  rw [List.getElem?_map, List.getElem?_map, List.getElem?_modify]
  by_cases hj : i = j
  · subst hj
    simp only [hloop, if_true, Option.map_some, Option.map_eq_map, Bytecodes.loopPlace, hgoal, Option.getD_some]
  · simp only [if_neg hj, Option.map_eq_map, Option.map_id']

/-- The loops of a neat state, when one of them has a new label. -/
theorem mem_modify {s : GenState} (hneat : s.Neat) (i l : Nat) {loop : Loop}
    (hmem : loop ∈ s.loops.modify i fun loop => { loop with bottomLabel := some l }) :
    loop.topLabel.next = none ∧ loop.bottomLabel.isSome := by
  obtain ⟨j, hj⟩ := List.getElem?_of_mem hmem
  rw [List.getElem?_modify] at hj
  obtain ⟨old, hold, rfl⟩ := Option.map_eq_some_iff.mp hj
  have hmem := List.mem_of_getElem? hold
  by_cases hij : i = j
  · rw [if_pos hij]
    exact ⟨hneat.tops old hmem, rfl⟩
  · rw [if_neg hij]
    exact ⟨hneat.tops old hmem, hneat.exits old hmem⟩

theorem puts_break (hfin : Finished fin bc) (exit : Int) :
    Puts fin bc lits v L (generateStmt (.break exit)) v (fun _ => L)
      fun P _ => (Stmt.break exit).stands bc lits P c := by
  intro s a s' hrun hv hown
  have htidy := (does_break (H := []) exit s a s' hrun hown.neat.tidy).tidy
  obtain ⟨⟨i, loop⟩, s1, hfind, hrun⟩ := bind_eq_some hrun
  obtain ⟨hemit, hloop⟩ := findExit_run hfind
  obtain ⟨hv1, hown1, hback1⟩ := puts_emitExit hfin exit s () s1 hemit hv hown
  obtain ⟨_, s2, hstack, hrun⟩ := bind_eq_some hrun
  obtain ⟨hv2, hown2, hback2⟩ := puts_addStackRef hfin loop.bottomStack s1 _ s2 hstack hv1 hown1
  have hloops2 : s2.loops = s1.loops := by
    cases hstack
    rfl
  rw [← hloops2] at hloop
  obtain ⟨l, s3, hlink, hrun⟩ := bind_eq_some hrun
  obtain ⟨hdone, -, hloops3, -⟩ := addLinkedLabel_spec (H := []) hlink hown2.neat.tidy
  obtain ⟨n, hn⟩ := Option.isSome_iff_exists.mp (hown2.neat.exits loop (List.mem_of_getElem? hloop))
  obtain ⟨H, hperm, hperm'⟩ := heads_modify hloop
  have hchained := hown2.chained.perm (hperm L)
  have hneat3 := addLinkedLabel_neat hown2.neat (fun m hm => hchained.lt
    (List.mem_append_left _ (Option.mem_toList.mpr hm))) hlink
  have hchained3 := hchained.link hown2.neat.tidy hlink
  have hcells : s3.cells = s2.cells := by
    cases hlink
    rfl
  have hlits : s3.gstate = s2.gstate := by
    cases hlink
    rfl
  cases hrun
  have hperm4 := hperm' L l
    { s3 with loops := s3.loops.modify i fun loop => { loop with bottomLabel := some l } }
    (congrArg (List.modify · i _) hloops3)
  have hown4 := hchained3.perm hperm4.symm
  refine ⟨hcells.trans hv2, ⟨⟨htidy, hneat3.down, fun _ h => (mem_modify hneat3 i l h).1,
    fun _ h => (mem_modify hneat3 i l h).2, hneat3.plain⟩, ⟨hown4.ended, hown4.apart⟩⟩, fun hlater => ?_⟩
  have hsettled := hlater.settled.perm hperm4
  have hsettled3 : Settled fin bc (l :: (L ++ H)) s3 := ⟨hsettled.final, hsettled.goals⟩
  obtain ⟨hsettled2, hgoals⟩ := hsettled3.link hchained hneat3.down hown2.neat.tidy hlink
  have hgrown3 : Grown s3 fin := ⟨hlater.grown.bytes, hlater.grown.fixups, hlater.grown.later⟩
  obtain ⟨hlater1, hplaces1, hcell⟩ := hback2 ⟨hdone.grown.trans hgrown3, hlits ▸ hlater.literals,
    hsettled2.perm (hperm L).symm⟩
  obtain ⟨hlater0, hplaces, hexit⟩ := hback1 hlater1
  have hgoal : bc.goal fin (loop.bottomLabel.getD 0) = bc.goal fin l := by
    rw [hn]
    exact hgoals n hn
  have hplaces2 : bc.places fin s2 =
      bc.places fin { s3 with loops := s3.loops.modify i fun loop => { loop with bottomLabel := some l } } :=
    places_modify hloop (congrArg (List.modify · i _) hloops3) hgoal
  refine ⟨hlater0, (hplaces.trans hplaces1).trans hplaces2, bc.loopPlace fin loop, ?_,
    s1.place bc fin, hexit, s2.place bc fin, hcell, s3.place bc fin, ?_, rfl⟩
  · rw [hplaces]
    exact leftLoop_of_exited (findExit_exited hfind) (hloops2 ▸ hloop)
  · rw [show (bc.loopPlace fin loop).exit = bc.goal fin l from hgoal]
    exact hfin.waits hlink hgrown3

/-! ## Statements -/

theorem puts_whenId {id : Int} {emit : Nat → Gen Unit} {code : Nat → Stretch}
    (h : ∀ slot, Puts fin bc lits v L (emit slot) v (fun _ => L) fun _ _ => code slot) :
    Puts fin bc lits v L (whenId id emit) v (fun _ => L) fun _ _ => .when (0 ≤ id) (code id.toNat) := by
  unfold whenId Stretch.when
  split
  · exact h _
  · exact (puts_pure (A := fun _ => L)).mono fun _ _ _ _ hpure => hpure.2

theorem puts_emitWhile (hfin : Finished fin bc) (id : Int) :
    Puts fin bc lits v L (emitWhile id) v (fun _ => L) fun _ _ => whileCode bc id := by
  unfold emitWhile whileCode
  split
  · exact puts_emitOp hfin .while
  · exact (puts_emitExtended hfin .whileId).pair (puts_addVarRef hfin id.toNat)

/-- The jump behind a handler, if it is to go where the last of them goes. -/
theorem puts_jumpToEnd (hfin : Finished fin bc) (next : ExceptArm) (b : Option Nat) :
    Puts fin bc lits v (b.toList ++ L) (jumpToEnd next b) v (fun b' => b'.toList ++ L)
      fun _ b' pc pc' => ∀ stop, (∀ n ∈ b', bc.goal fin n = stop) →
        (∀ n ∈ b, bc.goal fin n = stop) ∧ jumpCode bc next stop pc pc' := by
  cases next with
  | nil =>
      refine (puts_pure (A := fun b' : Option Nat => b'.toList ++ L) (a := b)).mono ?_
      rintro _ _ pc pc' ⟨rfl, rfl⟩ stop hstop
      exact ⟨hstop, rfl⟩
  | cons id codes stmt next =>
      refine ((puts_emitOp hfin .jump).seq ((puts_addLinkedLabel hfin b).bind fun l =>
        puts_pure (A := fun b' : Option Nat => b'.toList ++ L) (a := some l))).mono ?_
      rintro _ _ pc pc' ⟨p, hop, l, p', ⟨hlabel, hgoals⟩, rfl, rfl⟩ stop hstop
      have hl : bc.goal fin l = stop := hstop l rfl
      rw [hl] at hlabel
      exact ⟨fun n hn => (hgoals n hn).trans hl, p, hop, _, hlabel, rfl⟩

/-- The end of a loop: back to its top. -/
theorem puts_endLoop (hfin : Finished fin bc) {top : Fixup} (hkind : top.kind = .label)
    (hlast : top.next = none) {n : Nat} {k : Gen Unit} {v' : Int × Int}
    (hk : Puts fin bc lits v (n :: L) k v' (fun _ => L) fun _ _ => here (bc.goal fin n)) :
    Puts fin bc lits v (n :: L) (do
      emitOp .jump
      let _ ← addKnownLabel top
      k) v' (fun _ => L) fun _ _ => .all
        [opAt bc .jump, labelAt bc (bc.operandValue top), here (bc.goal fin n)] := by
  refine ((puts_emitOp hfin .jump).seq ((puts_addKnownLabel hfin hkind hlast).bind fun _ => hk)).mono ?_
  rintro _ _ pc pc' ⟨p, hop, -, p', hlabel, hhere⟩
  exact ⟨p, hop, _, hlabel, _, hhere, rfl⟩

/-- The end of a `for`, with the two cells that it has on the stack. -/
theorem puts_endFor (hfin : Finished fin bc) {n : Nat} :
    Puts fin bc lits (c + 2, saved) (n :: L) (do defineLabel (some n); popStack 2) (c, saved) (fun _ => L)
      fun _ _ => here (bc.goal fin n) := by
  refine ((puts_define hfin).seq (puts_popStack 2 rfl)).mono ?_
  rintro _ _ pc pc' ⟨p, hhere, rfl⟩
  exact hhere

theorem handlerCodes_length : ∀ (excepts : ExceptArm) {s s' : GenState} {labels : List Nat},
    generateHandlerCodes excepts s = some (labels, s') → labels.length = excepts.count
  | .nil, _, _, _, hrun => by
      cases hrun
      rfl
  | .cons _ _ _ next, _, _, _, hrun => by
      obtain ⟨_, _, -, hrun⟩ := bind_eq_some hrun
      obtain ⟨_, _, -, hrun⟩ := bind_eq_some hrun
      obtain ⟨_, _, -, hrun⟩ := bind_eq_some hrun
      obtain ⟨_, _, -, hrun⟩ := bind_eq_some hrun
      obtain ⟨labels', _, hnext, hrun⟩ := bind_eq_some hrun
      cases hrun
      exact congrArg (· + 1) (handlerCodes_length next hnext)

theorem puts_generateHandlerCodes (hfin : Finished fin bc) {loops : List Int} : ∀ {excepts : ExceptArm},
    excepts.Valid loops → excepts.Plain → ∀ {L : List Nat} {c : Int},
    Puts fin bc lits (c, -1) L (generateHandlerCodes excepts) (c + 2 * excepts.count, -1)
      (fun labels => labels ++ L)
      fun _ labels => excepts.codesStand bc lits (labels.map (bc.goal fin)) c
  | .nil, .nil, _, L, c => by
      refine Puts.to ((puts_pure (A := fun labels => labels ++ L) (a := [])).mono ?_) (by simp [ExceptArm.count])
      rintro _ _ pc pc' ⟨rfl, rfl⟩
      exact rfl
  | .cons id codes stmt next, .cons hcodes _ hnext, hp, L, c => by
      have hdepth : (c + 1 + (1 : Nat) + 2 * (next.count : Int), (-1 : Int)) =
          (c + 2 * ((ExceptArm.cons id codes stmt next).count : Int), -1) := by
        rw [ExceptArm.count]
        congr 1
        omega
      have hback : ∀ (l : Nat) (labels : List Nat) (v : Int × Int), Puts fin bc lits v (labels ++ l :: L)
          (pure (l :: labels)) v (fun labels => labels ++ L)
          fun _ labels' pc pc' => labels' = l :: labels ∧ pc' = pc := fun l labels v =>
        (puts_pure (A := fun labels => labels ++ L) (a := l :: labels)).reorder List.perm_middle
      have hargs : ∀ {L}, Puts fin bc lits (c, -1) L (generateArgList codes true) (c + 1, -1) (fun _ => L)
          fun _ _ => codes.stands bc lits true (-1) c := hcodes.puts hfin true hp.1
      refine Puts.to (((puts_emitCodes hfin hargs).seq ((puts_emitExtended hfin .pushLabel).seq
        ((puts_addLabel hfin).bind fun l => (puts_pushStack 1 rfl).silent
          ((puts_generateHandlerCodes hfin hnext hp.2.2).bind fun labels => hback l labels _)))).mono ?_) hdepth
      rintro _ _ pc pc' ⟨p1, hc, p2, hop, l, p3, hlabel, labels, p4, hnext, rfl, rfl⟩
      rw [show c + 1 + (1 : Nat) = c + 2 by omega] at hnext
      exact ⟨p1, hc, p2, hop, p3, hlabel, _, hnext, rfl⟩

mutual

/-- The code of a valid statement. -/
theorem Stmt.Valid.puts (hfin : Finished fin bc) : ∀ {stmt : Stmt} {loops : List Int}, stmt.Valid loops →
    stmt.Plain → ∀ {L : List Nat} {c : Int}, Puts fin bc lits (c, -1) L (generateStmt stmt) (c, -1) (fun _ => L)
      fun P _ => stmt.stands bc lits P c
  | .expr e, _, .expr he, hp, L, c => by
      refine ((he.puts hfin hp).seq ((puts_emitOp hfin .pop).seq (puts_popStack 1 rfl))).mono ?_
      rintro _ _ pc pc' ⟨p, hstands, p', hop, rfl⟩
      exact ⟨p, hstands, _, hop, rfl⟩
  | .return (some e), _, .return he, hp, L, c => by
      refine ((he.puts hfin hp).seq ((puts_emitOp hfin .return).seq (puts_popStack 1 rfl))).mono ?_
      rintro _ _ pc pc' ⟨p, hstands, p', hop, rfl⟩
      exact ⟨p, hstands, _, hop, rfl⟩
  | .return none, _, .return0, _, L, c => puts_emitOp hfin .return0
  | .break exit, _, .break _, _, L, c => puts_break hfin exit
  | .continue exit, _, .continue _, _, L, c => puts_continue hfin exit
  | .cond arms otherwise, _, .cond harms hotherwise, hp, L, c => by
      refine ((harms.puts hfin .if none hp.1).bind fun b =>
        (hotherwise.puts hfin hp.2).bind fun _ => puts_defineLabel hfin b).mono ?_
      rintro P _ pc pc' ⟨b, p, harms, -, p', hotherwise, hgoal, rfl⟩
      exact ⟨p, (harms _ hgoal).2, _, hotherwise, rfl⟩
  | .while id condition body, _, .while he hbody, hp, L, c => by
      refine (Puts.capture hfin fun top hkind hlast => (he.puts hfin hp.1).seq ((puts_emitWhile hfin id).seq
        ((puts_addLabel hfin).bind fun l => (puts_popStack 1 rfl).silent (.curTop
          (puts_loop hkind hlast (hbody.puts hfin hp.2) fun n =>
            puts_endLoop hfin hkind hlast (puts_define hfin)))))).mono ?_
      rintro P _ pc pc' ⟨top, rfl, p1, he, p2, hop, l, p3, hlabel, p4, hbody, n, hgoal, p5, hjump, p6, htop, p7,
        ⟨rfl, rfl⟩, rfl⟩
      rw [← hgoal] at hlabel hbody
      exact ⟨_, _, ⟨rfl, rfl⟩, p1, he, p2, hop, p3, hlabel, p4, hbody, p5, hjump, _, htop, rfl⟩
  | .list id e body, _, .list he hbody, hp, L, c => by
      have hdepth : c + 1 + (1 : Nat) = c + 2 := by omega
      have hexit : c + 2 - 2 = c := by omega
      refine ((he.puts hfin hp.1).seq ((puts_emitByte hfin (optimNumToOpcode 1)).seq
        ((puts_pushStack 1 hdepth.symm).silent (Puts.capture hfin fun top hkind hlast =>
          (puts_emitOp hfin .forList).seq ((puts_addVarRef hfin id).seq ((puts_addLabel hfin).bind fun l =>
            .curTop (puts_loop hkind hlast (hbody.puts hfin hp.2) fun n =>
              puts_endLoop hfin hkind hlast (puts_endFor hfin)))))))).mono ?_
      rintro P _ pc pc' ⟨p1, he, p2, hone, top, rfl, p3, hop, p4, hslot, l, p5, hlabel, p6, hbody, n, hgoal, p7, hjump,
        p8, htop, p9, ⟨rfl, rfl⟩, rfl⟩
      rw [← hgoal] at hlabel hbody
      rw [hexit] at hbody
      exact ⟨_, p1, he, _, hone, _, ⟨rfl, rfl⟩, p3, hop, p4, hslot, p5, hlabel, p6, hbody, p7, hjump, _, htop, rfl⟩
  | .range id from' to' body, _, .range hfrom hto hbody, hp, L, c => by
      have hdepth : c + 1 + 1 = c + 2 := by omega
      have hexit : c + 2 - 2 = c := by omega
      refine ((hfrom.puts hfin hp.1).seq ((Puts.to (hto.puts hfin hp.2.1) (by rw [hdepth])).seq
        (Puts.capture hfin fun top hkind hlast =>
          (puts_emitOp hfin .forRange).seq ((puts_addVarRef hfin id).seq ((puts_addLabel hfin).bind fun l =>
            .curTop (puts_loop hkind hlast (hbody.puts hfin hp.2.2) fun n =>
              puts_endLoop hfin hkind hlast (puts_endFor hfin))))))).mono ?_
      rintro P _ pc pc' ⟨p1, hfrom, p2, hto, top, rfl, p3, hop, p4, hslot, l, p5, hlabel, p6, hbody, n, hgoal, p7,
        hjump, p8, htop, p9, ⟨rfl, rfl⟩, rfl⟩
      rw [← hgoal] at hlabel hbody
      rw [hexit] at hbody
      exact ⟨_, p1, hfrom, _, hto, _, ⟨rfl, rfl⟩, p3, hop, p4, hslot, p5, hlabel, p6, hbody, p7, hjump, _, htop, rfl⟩
  | .tryExcept body excepts, _, .tryExcept hbody hexcepts, hp, L, c => by
      refine (Puts.knowing (K := fun labels => labels.length = excepts.count)
        (puts_generateHandlerCodes hfin hexcepts hp.2.2) (fun _ _ _ => handlerCodes_length excepts)
        fun labels hlen => (puts_emitExtended hfin .tryExcept).seq ((puts_emitByte hfin _).seq
          ((puts_pushStack 1 rfl).silent ((hbody.puts hfin hp.1).bind fun _ =>
            (puts_emitExtended hfin .endExcept).seq ((puts_addLabel hfin).bind fun l =>
              (puts_popStack (2 * labels.length + 1) (d := c) (by rw [hlen]; omega)).silent
                ((Puts.reorder (hexcepts.putsHandlers hfin hp.2.2 hlen (some l)) List.perm_middle.symm).bind
                  fun b => puts_defineLabel hfin b)))))).mono ?_
      rintro P _ pc pc' ⟨labels, p1, hlen, hcodes, p2, hop, p3, hnum, -, p4, hbody, p5, hend, l, p6, hlabel, b, p7,
        hhandlers, hgoal, rfl⟩
      obtain ⟨hl, hhandlers⟩ := hhandlers _ hgoal
      rw [hl l rfl] at hlabel
      refine ⟨labels.map (bc.goal fin), p1, hcodes, p2, hop, p3, ?_, p4, ?_, p5, hend, p6, hlabel, _, hhandlers, rfl⟩
      · rw [List.length_map]
        exact hnum
      · rw [List.length_map, hlen]
        exact hbody
  | .tryFinally body handler, _, .tryFinally hbody hhandler, hp, L, c => by
      refine ((puts_emitExtended hfin .tryFinally).seq ((puts_addLabel hfin).bind fun l =>
        (puts_pushStack 1 rfl).silent ((hbody.puts hfin hp.1).bind fun _ => (puts_emitExtended hfin .endFinally).seq
          ((puts_popStack 1 rfl).silent ((puts_define hfin).seq ((puts_pushStack 2 rfl).silent
            ((hhandler.puts hfin hp.2).bind fun _ => (puts_emitExtended hfin .continue).seq
              (puts_popStack 2 rfl)))))))).mono ?_
      rintro P _ pc pc' ⟨p1, hop, l, p2, hlabel, -, p3, hbody, p4, hend, p5, ⟨rfl, rfl⟩, -, p6, hhandler, p7, hcont, rfl⟩
      exact ⟨_, p1, hop, p2, hlabel, p3, hbody, _, hend, _, ⟨rfl, rfl⟩, p6, hhandler, _, hcont, rfl⟩

theorem StmtList.Valid.puts (hfin : Finished fin bc) : ∀ {stmts : StmtList} {loops : List Int},
    stmts.Valid loops → stmts.Plain → ∀ {L : List Nat} {c : Int},
    Puts fin bc lits (c, -1) L (generateStmts stmts) (c, -1) (fun _ => L)
      fun P _ => stmts.stands bc lits P c
  | .nil, _, .nil, _, L, c => (puts_pure (A := fun _ => L)).mono fun _ _ _ _ hpure => hpure.2
  | .cons stmt next, _, .cons hstmt hnext, hp, L, c => by
      refine ((hstmt.puts hfin hp.1).bind fun _ => hnext.puts hfin hp.2).mono ?_
      rintro P _ pc pc' ⟨-, p, hstands, hrest⟩
      exact ⟨p, hstands, _, hrest, rfl⟩

/-- The arms of a condition, whose jumps go where the last of them goes. -/
theorem CondArm.Valid.puts (hfin : Finished fin bc) : ∀ {arms : CondArm} {loops : List Int}, arms.Valid loops →
    ∀ (op : Opcode) (b : Option Nat), arms.Plain → ∀ {L : List Nat} {c : Int},
    Puts fin bc lits (c, -1) (b.toList ++ L) (generateArms arms op b) (c, -1) (fun b' => b'.toList ++ L)
      fun P b' pc pc' => ∀ stop, (∀ n ∈ b', bc.goal fin n = stop) →
        (∀ n ∈ b, bc.goal fin n = stop) ∧ arms.stands bc lits op stop P c pc pc'
  | .nil, _, .nil, op, b, _, L, c => by
      refine (puts_pure (A := fun b' : Option Nat => b'.toList ++ L) (a := b)).mono ?_
      rintro _ _ pc pc' ⟨rfl, rfl⟩ stop hstop
      exact ⟨hstop, rfl⟩
  | .cons e stmt next, _, .cons he hstmt hnext, op, b, hp, L, c => by
      refine ((he.puts hfin hp.1).seq ((puts_emitOp hfin op).seq ((puts_addLabel hfin).bind fun l =>
        (puts_popStack 1 rfl).silent ((hstmt.puts hfin hp.2.1).bind fun _ => (puts_emitOp hfin .jump).seq
          ((Puts.reorder (puts_addLinkedLabel hfin b) List.perm_middle.symm).bind fun l' =>
            (Puts.reorder (puts_define hfin) (.swap l l' L)).seq
              (hnext.puts hfin .eif (some l') hp.2.2)))))).mono ?_
      rintro P b' pc pc' ⟨p1, he, p2, hop, l, p3, hlabel, -, p4, hstmt, p5, hjump, l', p6, ⟨hlabel', hgoals⟩, p7,
        ⟨rfl, rfl⟩, hnext⟩ stop hstop
      obtain ⟨hl', hnext⟩ := hnext stop hstop
      rw [hl' l' rfl] at hlabel' hgoals
      exact ⟨hgoals, _, p1, he, p2, hop, p3, hlabel, p4, hstmt, p5, hjump, _, hlabel', _, ⟨rfl, rfl⟩, _, hnext, rfl⟩

/-- The handlers, whose jumps go where the last of them goes. -/
theorem ExceptArm.Valid.putsHandlers (hfin : Finished fin bc) : ∀ {excepts : ExceptArm} {loops : List Int},
    excepts.Valid loops → excepts.Plain → ∀ {labels : List Nat}, labels.length = excepts.count →
    ∀ (b : Option Nat) {L : List Nat} {c : Int},
    Puts fin bc lits (c, -1) (labels ++ (b.toList ++ L)) (generateHandlers excepts labels b) (c, -1)
      (fun b' => b'.toList ++ L)
      fun P b' pc pc' => ∀ stop, (∀ n ∈ b', bc.goal fin n = stop) → (∀ n ∈ b, bc.goal fin n = stop) ∧
        excepts.stands bc lits (labels.map (bc.goal fin)) stop P c pc pc'
  | .nil, _, .nil, _, [], _, b, L, c => by
      refine (puts_pure (A := fun b' : Option Nat => b'.toList ++ L) (a := b)).mono ?_
      rintro _ _ pc pc' ⟨rfl, rfl⟩ stop hstop
      exact ⟨hstop, rfl⟩
  | .cons id codes stmt next, _, .cons _ hstmt hnext, hp, l :: labels, hlen, b, L, c => by
      refine ((puts_define hfin).seq ((puts_pushStack 1 rfl).silent
        ((puts_whenId fun slot => puts_emitVarOp hfin .put slot).seq ((puts_emitOp hfin .pop).seq
          ((puts_popStack 1 rfl).silent ((hstmt.puts hfin hp.2.1).bind fun _ =>
            (Puts.reorder (puts_jumpToEnd hfin next b) (List.perm_append_comm_assoc _ _ _)).bind fun b' =>
              Puts.reorder (hnext.putsHandlers hfin hp.2.2 (Nat.succ.inj hlen) b')
                (List.perm_append_comm_assoc _ _ _))))))).mono ?_
      rintro P b'' pc pc' ⟨p1, ⟨rfl, rfl⟩, p2, hput, p3, hpop, -, p4, hstmt, b', p5, hjump, hnext⟩ stop hstop
      obtain ⟨hb', hnext⟩ := hnext stop hstop
      obtain ⟨hb, hjump⟩ := hjump stop hb'
      exact ⟨hb, _, ⟨rfl, rfl⟩, p2, hput, p3, hpop, p4, hstmt, p5, hjump, _, hnext, rfl⟩

end

/-! ## Vectors -/

theorem initState_owned {gstate : GState} (h : ∀ v ∈ gstate.literals, v.PlainLiteral) :
    Owned [] (initState gstate) where
  neat :=
    { tidy := initState_tidy gstate
      down := fun _ _ hl => by cases hl
      tops := fun _ hmem => by cases hmem
      exits := fun _ hmem => by cases hmem
      plain := h }
  chained :=
    { ended := fun _ hl => by cases hl
      apart := List.Pairwise.nil }

theorem StmtList.Valid.puts_code {stmts : StmtList} (hvalid : stmts.Valid []) (hplain : stmts.Plain)
    (hfin : Finished fin bc) : Puts fin bc lits (0, -1) [] stmts.code (0, -1) (fun _ => [])
      fun P _ pc pc' => ∃ (_ : Unit) (p : Nat), stmts.stands bc lits P 0 pc p ∧ opAt bc .done p pc' :=
  (hvalid.puts hfin hplain).bind fun _ => puts_emitOp hfin .done

/-- The literals of a program. -/
theorem StmtList.Valid.literals {stmts : StmtList} (hvalid : stmts.Valid []) (hplain : stmts.Plain)
    {gstate : GState} (hliterals : ∀ v ∈ gstate.literals, v.PlainLiteral)
    (hrun : stmts.code (initState gstate) = some ((), fin)) (hfin : Finished fin bc) :
    ∀ v ∈ fin.gstate.literals, v.PlainLiteral := by
  have hputs : Puts fin bc fin.gstate.literals _ _ _ _ _ _ := hvalid.puts_code hplain hfin
  obtain ⟨-, hown, -⟩ := hputs _ _ _ hrun rfl (initState_owned hliterals)
  exact hown.neat.plain

/-- The code of a vector stands at its beginning. -/
theorem StmtList.Valid.stands {stmts : StmtList} (hvalid : stmts.Valid []) (hplain : stmts.Plain)
    {gstate : GState} (hliterals : ∀ v ∈ gstate.literals, v.PlainLiteral)
    (hrun : stmts.code (initState gstate) = some ((), fin)) (hfin : Finished fin bc)
    (hlits : fin.gstate.literals <+: lits) :
    ∃ pc, stmts.stands bc lits [] 0 0 pc ∧ opAt bc .done pc (pc + 1) := by
  have hdoes : Does [] stmts.code noLabels := (does_generateStmts stmts).seq fun _ => does_emitOp _
  have hdone := hdoes _ _ _ hrun (initState_tidy gstate)
  have hloops : fin.loops = [] := List.eq_nil_of_length_eq_zero (hdone.safe nowhere nofun nofun).1.count
  obtain ⟨-, -, hback⟩ := hvalid.puts_code hplain hfin _ _ _ hrun rfl (initState_owned hliterals)
  have hheads : fin.heads [] = [] := by rw [GenState.heads, hloops]; rfl
  obtain ⟨-, -, -, pc, hstands, hop⟩ := hback
    ⟨Grown.refl fin, hlits, ⟨fun _ _ hr _ => hr, fun l hl => by rw [hheads] at hl; cases hl⟩⟩
  have hplace : (initState gstate).place bc fin = 0 := by
    rw [GenState.place, Bytecodes.place]
    show 0 + _ = 0
    rw [filter_none fun f _ => by simp [initState]]
    rfl
  rw [hplace] at hstands
  exact ⟨pc, hstands, hop.2 ▸ hop⟩

end Waverous
