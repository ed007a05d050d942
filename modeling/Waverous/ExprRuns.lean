import Waverous.ScatterRuns
import Waverous.HandlerRuns

/-! # The code of expressions does what they mean

    For every valid expression, its code puts the value that the tree has on the stack, or comes to
    the same exception; `$` is the cell of the stack that was remembered for it. -/

namespace Waverous

open Machines
open ActivStack (handles Arm armCells)
open Blocks (Fault)

variable {W : Type} {α : Type}

/-! ## The stack -/

/-- So many cells are on the stack, and one of them is what `$` is the length of. -/
structure Cells (flag : Bool) (dollar : Option Var) (saved depth : Int) (rts : List Var) : Prop where
  depth : (rts.length : Int) = depth
  cell : ∀ v ∈ dollar, 0 ≤ saved ∧ rts.reverse[saved.toNat]? = some v
  known : flag = true → dollar.isSome = true

section

variable {flag : Bool} {dollar : Option Var} {saved depth : Int} {rts : List Var}

/-- More values on the stack leave the cell alone. -/
theorem Cells.append (h : Cells flag dollar saved depth rts) {J : List Var} {k : Int} (hk : (J.length : Int) = k) :
    Cells flag dollar saved (depth + k) (J ++ rts) := by
  refine ⟨?_, fun v hv => ?_, h.known⟩
  · have := h.depth
    rw [List.length_append]
    omega
  · obtain ⟨hsaved, hcell⟩ := h.cell v hv
    refine ⟨hsaved, ?_⟩
    obtain ⟨hlt, -⟩ := List.getElem?_eq_some_iff.mp hcell
    rw [List.reverse_append, List.getElem?_append_left hlt, hcell]

theorem Cells.push (h : Cells flag dollar saved depth rts) (v : Var) :
    Cells flag dollar saved (depth + 1) (v :: rts) := h.append (J := [v]) rfl

theorem Cells.push' (h : Cells flag dollar saved (depth + 1) rts) (v : Var) :
    Cells flag dollar saved (depth + 2) (v :: rts) := by
  have := h.push v
  rwa [Int.add_assoc] at this

/-- Between the brackets, `$` is for what is indexed. -/
theorem Cells.index (h : Cells flag dollar saved depth rts) (v : Var) :
    Cells true (some v) depth (depth + 1) (v :: rts) := by
  have hdepth := h.depth
  refine ⟨(h.push v).depth, ?_, fun _ => rfl⟩
  rintro w ⟨⟩
  refine ⟨by omega, ?_⟩
  rw [List.reverse_cons, List.getElem?_append_right (by rw [List.length_reverse]; omega), List.length_reverse,
    show depth.toNat - rts.length = 0 by omega]
  rfl

end

section

variable {S : Setting W} {pc' : Nat} {rts : List Var} {code c1 c2 : Stretch} {m m1 m2 : Eval W Var} {v : Var}

/-! ## Constructs -/

theorem eopLength_at {debug : Bool} {bc : Bytecodes} {saved : Int} {p : Nat} {rtEnv : List Var}
    (hcell : rts.reverse[saved.toNat]? = some v) (hstack : stackAt bc saved p pc') :
    eopLength debug bc ⟨p, rts, rtEnv⟩ = some ((lengthAnswer v).push debug ⟨pc', rts, rtEnv⟩) := by
  simp only [eopLength, readOperand_at hstack, Option.bind_eq_bind, Option.bind_some, hcell]

/-- `EOP_LENGTH`. -/
theorem gives_length {saved : Int} (hcell : rts.reverse[saved.toNat]? = some v) :
    S.Gives (.all [extendedAt S.bc .length, stackAt S.bc saved]) pc' rts (give S.host (lengthAnswer v)) := by
  rintro n pc st temp ⟨p, hop, _, hstack, rfl⟩ hlt hst
  have hstep : S.step (.run (st.machine pc rts temp)) = some ((st.machine p rts temp).next S.host
      ((lengthAnswer v).push S.host.debug ⟨pc', rts, st.env⟩)) :=
    (step_extended hop).trans (congrArg (Option.map _) (eopLength_at hcell hstack))
  exact (carries_give S.hostSane hst (lengthAnswer_ordinary v) hstep).value

/-- `&&` and `||`: the second value, or the first one at once. -/
theorem does_short {op : Opcode} {stop : Bool} (hop : op = .and ∧ stop = false ∨ op = .or ∧ stop = true)
    (hm : S.Gives code pc' rts m) (hv : v.ordinary = true) :
    S.Does (.all [opAt S.bc op, labelAt S.bc pc', code]) pc' (v :: rts) rts
      (if isTrue v = stop then pure v else m) (Value pc' rts) := by
  rintro n pc st temp ⟨p1, hat, p2, hlab, _, hcode, rfl⟩ hlt hst
  refine .step (step_short hop ⟨p1, hat, p2, hlab, rfl⟩) ?_
  by_cases hstop : isTrue v = stop
  · rw [if_pos hstop, if_pos hstop]
    exact .pure hst ⟨hv, temp, rfl⟩
  · rw [if_neg hstop, if_neg hstop]
    exact hm n p2 st temp hcode hlt hst

/-- `? |`. -/
theorem does_cond {otherwise : Nat} (h1 : ∀ p, S.Gives c1 p rts m1) (h2 : S.Gives c2 pc' rts m2)
    (hc2 : c2.Forward) :
    S.Does (.all [opAt S.bc .ifQues, labelAt S.bc otherwise, c1, opAt S.bc .jump, labelAt S.bc pc', here otherwise, c2])
      pc' (v :: rts) rts (if isTrue v = true then m1 else m2) (Value pc' rts) := by
  rintro n pc st temp ⟨p1, hat, p2, hlab, p3, hc, p4, hjump, p5, hlab', p6, ⟨rfl, rfl⟩, _, hc', rfl⟩ hlt hst
  refine .step (step_test (.inr (.inr (.inr rfl))) ⟨p1, hat, p2, hlab, rfl⟩) ?_
  by_cases hv : isTrue v = true
  · rw [if_pos hv, if_pos hv]
    have hp3 : p3 < S.bc.vector.length := by
      have := hc2 _ _ hc'
      have := hjump.2
      have := hlab'.2
      omega
    refine (h1 p3 n p2 st temp hc hp3 hst).onward ?_
    rintro w st' _ ⟨hw, temp', rfl⟩
    exact ⟨_, ⟨hw, temp', rfl⟩, (Leads.one (step_jump ⟨p4, hjump, p6, hlab', rfl⟩)).weaken⟩
  · rw [if_neg hv, if_neg hv]
    exact h2 n p6 st temp hc' hlt hst

/-- An assignment to anything but a pattern. -/
theorem gives_asgn {e rhs : Expr} {saved depth : Int} {dollar : Option Var} (hne : ∀ sc, e ≠ .scatter sc)
    (htarget : ∀ p, S.Does (e.targetStands S.bc S.lits false saved depth) p rts rts (evalTarget S.host e dollar)
      (Aimed e p rts))
    (hrhs : ∀ r : Ref, r.Of e → ∀ p, S.Gives (rhs.stands S.bc S.lits saved (depth + e.cells)) p (r.cells ++ rts)
      (evalExpr S.host rhs dollar)) :
    S.Gives ((Expr.asgn e rhs).stands S.bc S.lits saved depth) pc' rts (evalExpr S.host (.asgn e rhs) dollar) := by
  have heval : evalExpr S.host (.asgn e rhs) dollar = (do
      let ref ← evalTarget S.host e dollar
      let v ← evalExpr S.host rhs dollar
      let stored ← ref.assign S.host v
      pure (ref.result v stored)) := by
    rw [evalExpr]
    exact hne
  intro n pc st temp h hlt hst
  rw [stands_asgn hne] at h
  obtain ⟨p1, htgt, hrest⟩ := h
  have hforward : (Stretch.all [.when (e.isIndexed = true) (opAt S.bc .putTemp), putCode S.bc e,
      .when (e.isIndexed = true) (.all [opAt S.bc .pop, opAt S.bc .pushTemp])]).Forward :=
    forward_byte.when.cons ((forward_put e).cons (Stretch.Forward.when (forward_byte.cons (forward_byte.cons .nil))
      |>.cons .nil))
  have hp1 : p1 < S.bc.vector.length := Nat.lt_of_le_of_lt ((rhs.forward _ _).cons hforward p1 pc' hrest) hlt
  rw [heval]
  refine .seq (htarget p1 n pc st temp htgt hp1 hst) ?_
  -- the parts of the target are below the value
  rintro r st' _ hst' ⟨hr, hcells, temp', rfl⟩
  exact Setting.Does.eval (hrhs r hr) hforward (.values hcells) (fun v hv => does_assign hr hcells hv) n p1 st' temp'
    hrest hlt hst'

/-- An assignment to a pattern. -/
theorem does_scatter {sc : Scatter} {places : List Nat} {saved depth : Int} {dollar : Option Var}
    (hargs : sc.nargs < 255) (hrests : sc.rests ≤ 1) (hv : v.ordinary = true)
    (hdefaults : ∀ avail n p st temp, sc.stands S.bc S.lits places saved depth p pc' → st.Sane S.sane →
      S.Carries n (.run (st.machine (sc.entry places avail pc') (v :: rts) temp)) (evalDefaults S.host sc avail dollar)
        st (v :: rts) (Behind pc' (v :: rts))) :
    S.Does (.all [scatterCode S.bc sc places pc', sc.stands S.bc S.lits places saved depth]) pc' (v :: rts) rts
      (assignScatter S.host sc v fun avail => evalDefaults S.host sc avail dollar) (Value pc' rts) := by
  rintro n pc st temp ⟨p, hcode, _, hstands, rfl⟩ hlt hst
  -- 0 and 1 stand for targets without a default
  have hlarge : ∀ place ∈ places.take sc.defaults, 1 < place := by
    intro place hplace
    have hle := places_behind sc hstands place hplace
    obtain ⟨_, ⟨_, ⟨-, rfl⟩, _, ⟨-, rfl⟩, rfl⟩, _, ⟨-, rfl⟩, hrest⟩ := hcode
    have : pc + 1 + 1 + 1 ≤ p := (forward_byte.cons (forward_byte.cons
      ((forward_targets sc places).cons (forward_operand.cons .nil)))) _ _ hrest
    omega
  refine .get ?_
  cases herror : scatterError sc.nargs sc.nreq sc.hasRest v with
  | some e =>
      rw [scatterVars_error herror]
      exact carries_scatterError hargs hrests hcode hst herror
  | none =>
      cases v with
      | list l =>
          have hl := ordinary_list.mp hv
          cases hrest : scatterRest sc l with
          | error f =>
              rw [scatterVars_fault herror hrest]
              exact .step (step_scatterFault hargs hrests hcode herror hrest) (.some ⟨hst, rfl⟩ (.refl _))
          | ok rest =>
              have hst' : Store.Sane S.sane ⟨assignTargets rest sc (l.length - sc.nreq) l st.env, st.world⟩ :=
                ⟨assignTargets_ordinary (scatterRest_ordinary hl hrest) sc hl hst.env, hst.world⟩
              rw [scatterVars_ok herror hrest]
              refine .step (step_scatterList hargs hrests hcode hlarge herror hrest) (.set ?_)
              refine .bind (J := [.list l]) (hdefaults _ n p _ temp hstands hst') ?_ ?_
              · intro w hw
                cases List.mem_singleton.mp hw
                rfl
              · rintro _ st2 _ hst2 ⟨temp', rfl⟩
                exact .pure hst2 ⟨hv, temp', rfl⟩
      | _ => cases herror

/-- A `try` in an expression, with the codes on the stack. -/
theorem does_catch {handler : Nat} {codes : Var} {next : Exception → Eval W Var} (hcodes : codes.ordinary = true)
    (htry : ∀ p, S.Gives c1 p (handlerCells [⟨codes, Int32.ofNat handler⟩] rts) m) (hc2 : c2.Forward)
    (hexcept : ∀ exc : Exception, exc.Ordinary →
      S.Does c2 pc' (exc.value :: rts) rts (next exc) (Value pc' rts)) :
    S.Does (.all [extendedAt S.bc .pushLabel, labelAt S.bc handler, extendedAt S.bc .catch, c1,
      extendedAt S.bc .endCatch, labelAt S.bc pc', here handler, c2]) pc' (codes :: rts) rts
      (handle m fun exc => if handles exc.raise.code codes then some (next exc) else none) (Value pc' rts) := by
  rintro n pc st temp ⟨p1, hpush, p2, hlab, p3, hcatch, p4, hc, p5, hend, p6, hlab', p7, ⟨rfl, rfl⟩, _, hc', rfl⟩
    hlt hst
  have hp7 : p7 < S.bc.vector.length := Nat.lt_of_le_of_lt (hc2 _ _ hc') hlt
  have hp4 : p4 < S.bc.vector.length := by
    have := forward_extended _ _ hend
    have := hlab'.2
    omega
  have hplace : (Int32.ofNat p7).toInt.toNat = p7 := label_place (Nat.lt_trans hp7 S.small)
  have hunmarked : ∀ arm ∈ [Arm.mk codes (Int32.ofNat p7)], arm.codes.ordinary = true := by
    intro arm harm
    cases List.mem_singleton.mp harm
    exact hcodes
  refine .step (step_pushLabel ⟨p1, hpush, p2, hlab, rfl⟩) (.step (step_extended hcatch) ?_)
  -- a value, an error that is caught, or one that is not
  refine .handle (htry p4 n p3 st temp hc hp4 hst) hunmarked ?_ ?_ ?_
  · rintro v st' _ ⟨hv, temp', rfl⟩
    exact ⟨_, ⟨hv, temp', rfl⟩, (Leads.one (step_endCatch ⟨p5, hend, p7, hlab', rfl⟩)).weaken⟩
  · intro exc arm hexc harm
    obtain rfl := List.mem_singleton.mp (List.mem_of_find?_eq_some harm)
    refine ⟨next exc, if_pos (List.find?_some (p := fun arm : Arm => handles _ arm.codes) harm), ?_⟩
    intro st' temp' hst'
    rw [hplace]
    exact hexcept exc hexc n p7 st' temp' hc' hlt hst'
  · intro exc hnone
    exact if_neg (List.find?_eq_none.mp hnone ⟨codes, _⟩ List.mem_cons_self)

/-- The code of an error that has been caught. -/
theorem does_exceptNone {exc : Exception} (hexc : exc.Ordinary) :
    S.Does (.all [numberAt S.bc 1, opAt S.bc .ref]) pc' (exc.value :: rts) rts (pure exc.raise.code)
      (Value pc' rts) := by
  rintro n pc st temp ⟨p, hnum, _, hop, rfl⟩ hlt hst
  exact carries_number 1 rfl hnum (.step (step_op hop) (.pure hst ⟨hexc.raise.1, temp, rfl⟩))

end

/-! ## Expressions from their parts -/

section

variable {S : Setting W} {pc' : Nat} {rts : List Var} {e e1 e2 lhs rhs : Expr} {args : ArgList} {dollar : Option Var}
  {saved depth : Int}

theorem gives_negate (he : ∀ p, S.Gives (e.stands S.bc S.lits saved depth) p rts (evalExpr S.host e dollar)) :
    S.Gives ((Expr.negate e).stands S.bc S.lits saved depth) pc' rts (evalExpr S.host (.negate e) dollar) := by
  rw [evalExpr]
  exact .eval he (forward_byte.cons .nil) (.refl rts) fun v hv => does_unaryMinus.last

theorem gives_not (he : ∀ p, S.Gives (e.stands S.bc S.lits saved depth) p rts (evalExpr S.host e dollar)) :
    S.Gives ((Expr.not e).stands S.bc S.lits saved depth) pc' rts (evalExpr S.host (.not e) dollar) := by
  rw [evalExpr]
  exact .eval he (forward_byte.cons .nil) (.refl rts) fun v hv => (does_op (ordinary_value rfl) fun _ _ _ => rfl).last

theorem gives_binary (kind : BinaryKind)
    (hlhs : ∀ p, S.Gives (lhs.stands S.bc S.lits saved depth) p rts (evalExpr S.host lhs dollar))
    (hrhs : ∀ v p, S.Gives (rhs.stands S.bc S.lits saved (depth + 1)) p (v :: rts) (evalExpr S.host rhs dollar)) :
    S.Gives ((Expr.binary kind lhs rhs).stands S.bc S.lits saved depth) pc' rts
      (evalExpr S.host (.binary kind lhs rhs) dollar) := by
  rw [evalExpr]
  refine .eval hlhs ((rhs.forward _ _).cons (kind.forward.cons .nil)) (.refl rts) fun v hv => ?_
  exact .eval (hrhs v) (kind.forward.cons .nil) (.pushed hv) fun w hw => (does_binary kind).last

theorem gives_and (hlhs : ∀ p, S.Gives (lhs.stands S.bc S.lits saved depth) p rts (evalExpr S.host lhs dollar))
    (hrhs : S.Gives (rhs.stands S.bc S.lits saved depth) pc' rts (evalExpr S.host rhs dollar)) :
    S.Gives ((Expr.and lhs rhs).stands S.bc S.lits saved depth) pc' rts (evalExpr S.host (.and lhs rhs) dollar) := by
  rw [evalExpr]
  intro n pc st temp h hlt hst
  refine Setting.Does.eval hlhs (forward_byte.cons (forward_operand.cons ((rhs.forward _ _).cons .nil))) (.refl rts)
    (fun v hv => ?_) n pc st temp h hlt hst
  have hshort := does_short (.inl ⟨rfl, rfl⟩) hrhs hv
  cases htrue : isTrue v with
  | true =>
      rw [htrue, if_neg Bool.noConfusion] at hshort
      exact hshort
  | false =>
      rw [htrue, if_pos rfl] at hshort
      exact hshort

theorem gives_or (hlhs : ∀ p, S.Gives (lhs.stands S.bc S.lits saved depth) p rts (evalExpr S.host lhs dollar))
    (hrhs : S.Gives (rhs.stands S.bc S.lits saved depth) pc' rts (evalExpr S.host rhs dollar)) :
    S.Gives ((Expr.or lhs rhs).stands S.bc S.lits saved depth) pc' rts (evalExpr S.host (.or lhs rhs) dollar) := by
  rw [evalExpr]
  intro n pc st temp h hlt hst
  exact Setting.Does.eval hlhs (forward_byte.cons (forward_operand.cons ((rhs.forward _ _).cons .nil))) (.refl rts)
    (fun v hv => does_short (.inr ⟨rfl, rfl⟩) hrhs hv) n pc st temp h hlt hst

theorem gives_prop (hlhs : ∀ p, S.Gives (lhs.stands S.bc S.lits saved depth) p rts (evalExpr S.host lhs dollar))
    (hrhs : ∀ v p, S.Gives (rhs.stands S.bc S.lits saved (depth + 1)) p (v :: rts) (evalExpr S.host rhs dollar)) :
    S.Gives ((Expr.prop lhs rhs).stands S.bc S.lits saved depth) pc' rts (evalExpr S.host (.prop lhs rhs) dollar) := by
  rw [evalExpr]
  refine .eval hlhs ((rhs.forward _ _).cons (forward_byte.cons .nil)) (.refl rts) fun v hv => ?_
  exact .eval (hrhs v) (forward_byte.cons .nil) (.pushed hv) fun w hw => does_getProp.last

theorem gives_index (hlhs : ∀ p, S.Gives (lhs.stands S.bc S.lits saved depth) p rts (evalExpr S.host lhs dollar))
    (hrhs : ∀ v p, S.Gives (rhs.stands S.bc S.lits depth (depth + 1)) p (v :: rts) (evalExpr S.host rhs (some v))) :
    S.Gives ((Expr.index lhs rhs).stands S.bc S.lits saved depth) pc' rts (evalExpr S.host (.index lhs rhs) dollar) := by
  rw [evalExpr]
  refine .eval hlhs ((rhs.forward _ _).cons (forward_byte.cons .nil)) (.refl rts) fun v hv => ?_
  exact .eval (hrhs v) (forward_byte.cons .nil) (.pushed hv) fun w hw =>
    (does_op (refAnswer_ordinary hv w) fun _ _ _ => rfl).last

theorem gives_range (he : ∀ p, S.Gives (e.stands S.bc S.lits saved depth) p rts (evalExpr S.host e dollar))
    (he1 : ∀ v p, S.Gives (e1.stands S.bc S.lits depth (depth + 1)) p (v :: rts) (evalExpr S.host e1 (some v)))
    (he2 : ∀ v w p, S.Gives (e2.stands S.bc S.lits depth (depth + 2)) p (w :: v :: rts)
      (evalExpr S.host e2 (some v))) :
    S.Gives ((Expr.range e e1 e2).stands S.bc S.lits saved depth) pc' rts (evalExpr S.host (.range e e1 e2) dollar) := by
  rw [evalExpr]
  refine .eval he ((e1.forward _ _).cons ((e2.forward _ _).cons (forward_byte.cons .nil))) (.refl rts) fun v hv => ?_
  refine .eval (he1 v) ((e2.forward _ _).cons (forward_byte.cons .nil)) (.pushed hv) fun i hi => ?_
  exact .eval (he2 v i) (forward_byte.cons .nil) ((Over.pushed hv).push hi) fun j hj => (does_rangeRef hv).last

theorem gives_call {func : Nat} (hfunc : func < 256)
    (hargs : ∀ p, S.Gives (args.stands S.bc S.lits true saved depth) p rts (evalArgs S.host args none dollar)) :
    S.Gives ((Expr.call func args).stands S.bc S.lits saved depth) pc' rts (evalExpr S.host (.call func args) dollar) := by
  rw [evalExpr]
  exact .eval hargs (forward_byte.cons (forward_byte.cons .nil)) (.refl rts) fun v hv => does_biFuncCall hfunc hv

theorem gives_verb (hlhs : ∀ p, S.Gives (lhs.stands S.bc S.lits saved depth) p rts (evalExpr S.host lhs dollar))
    (hrhs : ∀ v p, S.Gives (rhs.stands S.bc S.lits saved (depth + 1)) p (v :: rts) (evalExpr S.host rhs dollar))
    (hargs : ∀ v w p, S.Gives (args.stands S.bc S.lits true saved (depth + 2)) p (w :: v :: rts)
      (evalArgs S.host args none dollar)) :
    S.Gives ((Expr.verb lhs rhs args).stands S.bc S.lits saved depth) pc' rts
      (evalExpr S.host (.verb lhs rhs args) dollar) := by
  rw [evalExpr]
  refine .eval hlhs ((rhs.forward _ _).cons ((args.forward true _ _).cons (forward_byte.cons .nil))) (.refl rts)
    fun v hv => ?_
  refine .eval (hrhs v) ((args.forward true _ _).cons (forward_byte.cons .nil)) (.pushed hv) fun w hw => ?_
  exact .eval (hargs v w) (forward_byte.cons .nil) ((Over.pushed hv).push hw) fun x hx => (does_callVerb hx).last

theorem gives_cond (he : ∀ p, S.Gives (e.stands S.bc S.lits saved depth) p rts (evalExpr S.host e dollar))
    (he1 : ∀ p, S.Gives (e1.stands S.bc S.lits saved depth) p rts (evalExpr S.host e1 dollar))
    (he2 : S.Gives (e2.stands S.bc S.lits saved depth) pc' rts (evalExpr S.host e2 dollar)) :
    S.Gives ((Expr.cond e e1 e2).stands S.bc S.lits saved depth) pc' rts (evalExpr S.host (.cond e e1 e2) dollar) := by
  rw [evalExpr]
  rintro n pc st temp ⟨otherwise, h⟩ hlt hst
  exact Setting.Does.eval he (forward_byte.cons (forward_operand.cons ((e1.forward _ _).cons (forward_byte.cons
    (forward_operand.cons (forward_here.cons ((e2.forward _ _).cons .nil))))))) (.refl rts)
    (fun v hv => does_cond he1 he2 (e2.forward _ _)) n pc st temp h hlt hst

theorem gives_scatter {sc : Scatter} (hargs : sc.nargs < 255) (hrests : sc.rests ≤ 1)
    (hrhs : ∀ p, S.Gives (rhs.stands S.bc S.lits saved depth) p rts (evalExpr S.host rhs dollar))
    (hsc : ∀ v places avail n p st temp, sc.stands S.bc S.lits places saved (depth + 1) p pc' →
      pc' < S.bc.vector.length → st.Sane S.sane →
      S.Carries n (.run (st.machine (sc.entry places avail pc') (v :: rts) temp)) (evalDefaults S.host sc avail dollar)
        st (v :: rts) (Behind pc' (v :: rts))) :
    S.Gives ((Expr.asgn (.scatter sc) rhs).stands S.bc S.lits saved depth) pc' rts
      (evalExpr S.host (.asgn (.scatter sc) rhs) dollar) := by
  rw [evalExpr]
  rintro n pc st temp ⟨places, h⟩ hlt hst
  exact Setting.Does.eval hrhs (forward_scatter.cons ((sc.forward _ _ _).cons .nil)) (.refl rts)
    (fun v hv => does_scatter hargs hrests hv fun avail n p st temp hstands hst =>
      hsc v places avail n p st temp hstands hlt hst) n pc st temp h hlt hst

theorem gives_catch {except : Option Expr}
    (hargs : ∀ p, S.Gives (args.handlerStands S.bc S.lits saved depth) p rts (evalCodes S.host args dollar))
    (he : ∀ v w x p, S.Gives (e.stands S.bc S.lits saved (depth + 3)) p (v :: w :: x :: rts)
      (evalExpr S.host e dollar))
    (hexcept : ∀ exc : Exception, exc.Ordinary → S.Does (exceptStands S.bc S.lits except saved depth) pc'
      (exc.value :: rts) rts (evalExcept S.host except exc dollar) (Value pc' rts)) :
    S.Gives ((Expr.catch e args except).stands S.bc S.lits saved depth) pc' rts
      (evalExpr S.host (.catch e args except) dollar) := by
  rw [evalExpr]
  rintro n pc st temp ⟨handler, h⟩ hlt hst
  exact Setting.Does.eval hargs (forward_extended.cons (forward_operand.cons (forward_extended.cons ((e.forward _ _).cons
    (forward_extended.cons (forward_operand.cons (forward_here.cons ((except_forward except _ _).cons .nil))))))))
    (.refl rts) (fun codes hcodes => does_catch hcodes (he _ _ codes) (except_forward except _ _) hexcept) n pc st temp
    h hlt hst

/-- What is done with an error that has been caught, if it is an expression. -/
theorem does_except (he : S.Gives (e.stands S.bc S.lits saved depth) pc' rts (evalExpr S.host e dollar)) {v : Var}
    (exc : Exception) :
    S.Does (exceptStands S.bc S.lits (some e) saved depth) pc' (v :: rts) rts (evalExcept S.host (some e) exc dollar)
      (Value pc' rts) := by
  rw [evalExcept]
  rintro n pc st temp ⟨p, hpop, _, hstands, rfl⟩ hlt hst
  exact .step (step_pop hpop) (he n p st temp hstands hlt hst)

/-! ### Arguments -/

theorem does_noArgs {list : Option Var} (hlist : ∀ w ∈ list, w.ordinary = true) :
    S.Does (ArgList.nil.stands S.bc S.lits list.isNone saved depth) pc' (list.toList ++ rts) rts
      (evalArgs S.host .nil list dollar) (Value pc' rts) := by
  rw [evalArgs_nil]
  cases list with
  | none =>
      intro n pc st temp hop hlt hst
      exact .step (step_op hop) (.pure hst ⟨rfl, temp, rfl⟩)
  | some w =>
      rintro n pc st temp rfl hlt hst
      exact .pure hst ⟨hlist w rfl, temp, rfl⟩

theorem does_args {kind : ArgKind} {list : Option Var} (hlist : ∀ w ∈ list, w.ordinary = true)
    (he : ∀ p, S.Gives (e.stands S.bc S.lits saved (depth + if list.isNone then 0 else 1)) p (list.toList ++ rts)
      (evalExpr S.host e dollar))
    (hargs : ∀ v, v.ordinary = true → S.Does (args.stands S.bc S.lits false saved depth) pc' (v :: rts) rts
      (evalArgs S.host args (some v) dollar) (Value pc' rts)) :
    S.Does ((ArgList.cons kind e args).stands S.bc S.lits list.isNone saved depth) pc' (list.toList ++ rts) rts
      (evalArgs S.host (.cons kind e args) list dollar) (Value pc' rts) := by
  have hover : Over (list.toList ++ rts) rts := by
    cases list with
    | none => exact .refl rts
    | some w => exact .pushed (hlist w rfl)
  -- the first argument begins the list, and the others are added to it
  rw [evalArgs]
  refine .eval he (forward_arg.cons ((args.forward false _ _).cons .nil)) hover fun v hv => ?_
  exact .eval (fun p => does_arg kind list hlist hv) ((args.forward false _ _).cons .nil) (.refl rts) fun w hw =>
    (hargs w hw).last

/-- `ANY`. -/
theorem gives_any : S.Gives (ArgList.nil.handlerStands S.bc S.lits saved depth) pc' rts
    (evalCodes S.host .nil dollar) := by
  rw [evalCodes_nil]
  intro n pc st temp hnum hlt hst
  exact carries_number 0 rfl hnum (.pure hst ⟨rfl, temp, rfl⟩)

theorem gives_codes {kind : ArgKind}
    (he : ∀ p, S.Gives (e.stands S.bc S.lits saved depth) p rts (evalExpr S.host e dollar))
    (hargs : ∀ v, v.ordinary = true → S.Does (args.stands S.bc S.lits false saved depth) pc' (v :: rts) rts
      (evalArgs S.host args (some v) dollar) (Value pc' rts)) :
    S.Gives ((ArgList.cons kind e args).handlerStands S.bc S.lits saved depth) pc' rts
      (evalCodes S.host (.cons kind e args) dollar) := by
  rw [evalCodes]
  refine .eval he (forward_arg.cons ((args.forward false _ _).cons .nil)) (.refl rts) fun v hv => ?_
  exact .eval (fun p => does_arg kind none (fun _ h => by cases h) hv) ((args.forward false _ _).cons .nil) (.refl rts)
    fun w hw => (hargs w hw).last

/-! ### Targets -/

theorem aims_id {slot : Nat} : S.Does ((Expr.id slot).targetStands S.bc S.lits false saved depth) pc' rts rts
    (evalTarget S.host (.id slot) dollar) (Aimed (.id slot) pc' rts) := by
  rw [evalTarget_id]
  rintro n pc st temp rfl hlt hst
  exact .pure hst ⟨rfl, .nil, temp, rfl⟩

theorem aims_prop (hlhs : ∀ p, S.Gives (lhs.stands S.bc S.lits saved depth) p rts (evalExpr S.host lhs dollar))
    (hrhs : ∀ v p, S.Gives (rhs.stands S.bc S.lits saved (depth + 1)) p (v :: rts) (evalExpr S.host rhs dollar)) :
    S.Does ((Expr.prop lhs rhs).targetStands S.bc S.lits false saved depth) pc' rts rts
      (evalTarget S.host (.prop lhs rhs) dollar) (Aimed (.prop lhs rhs) pc' rts) := by
  rw [evalTarget]
  refine .eval hlhs ((rhs.forward _ _).cons (forward_byte.when.cons .nil)) (.refl rts) fun v hv => ?_
  refine .eval (hrhs v) (forward_byte.when.cons .nil) (.pushed hv) fun w hw => ?_
  rintro n pc st temp ⟨_, rfl, rfl⟩ hlt hst
  exact .pure hst ⟨trivial, .cons hw (.cons hv .nil), temp, rfl⟩

/-- A target whose value is pushed, too. -/
theorem aims_above {flag : Bool} (he : e.Target flag) {cs : List Stretch} {f : Ref → Var → Eval W α}
    {good : α → Store W → Config W → Prop}
    (haims : ∀ p, S.Does (e.targetStands S.bc S.lits false saved depth) p rts rts (evalTarget S.host e dollar)
      (Aimed e p rts))
    (hcs : (Stretch.all cs).Forward)
    (hf : ∀ r v, r.Of e → Ordinary r.cells → v.ordinary = true →
      S.Does (.all cs) pc' (v :: (r.cells ++ rts)) rts (f r v) good) :
    S.Does (.all (e.targetStands S.bc S.lits true saved depth :: cs)) pc' rts rts
      (do let r ← evalTarget S.host e dollar; let v ← r.read S.host; f r v) good := by
  rintro n pc st temp ⟨p2, htarget, hrest⟩ hlt hst
  obtain ⟨p1, htgt, _, hread, rfl⟩ := target_above he htarget
  have hp2 := Nat.lt_of_le_of_lt (hcs _ _ hrest) hlt
  have hp1 := Nat.lt_of_le_of_lt (forward_read e _ _ hread) hp2
  refine .seq (haims p1 n pc st temp htgt hp1 hst) ?_
  rintro r st' _ hst' ⟨hr, hcells, temp', rfl⟩
  exact Setting.Does.eval (fun p => gives_read hr hcells) hcs (.values hcells) (fun v hv => hf r v hr hcells hv) n p1
    st' temp' ⟨_, hread, hrest⟩ hlt hst'

theorem aims_index {flag : Bool} (he : e.Target flag)
    (haims : ∀ p, S.Does (e.targetStands S.bc S.lits false saved depth) p rts rts (evalTarget S.host e dollar)
      (Aimed e p rts))
    (hrhs : ∀ r : Ref, r.Of e → ∀ v p, S.Gives (rhs.stands S.bc S.lits (depth + e.cells) (depth + e.cells + 1)) p
      (v :: (r.cells ++ rts)) (evalExpr S.host rhs (some v))) :
    S.Does ((Expr.index e rhs).targetStands S.bc S.lits false saved depth) pc' rts rts
      (evalTarget S.host (.index e rhs) dollar) (Aimed (.index e rhs) pc' rts) := by
  rw [evalTarget]
  refine aims_above he haims ((rhs.forward _ _).cons (forward_byte.when.cons .nil)) fun r v hr hcells hv => ?_
  refine .eval (hrhs r hr v) (forward_byte.when.cons .nil) ((Over.values hcells).push hv) fun i hi => ?_
  rintro n pc st temp ⟨_, rfl, rfl⟩ hlt hst
  exact .pure hst ⟨hr, .cons hi (.cons hv hcells), temp, rfl⟩

theorem aims_range {flag : Bool} (he : e.Target flag)
    (haims : ∀ p, S.Does (e.targetStands S.bc S.lits false saved depth) p rts rts (evalTarget S.host e dollar)
      (Aimed e p rts))
    (he1 : ∀ r : Ref, r.Of e → ∀ v p, S.Gives (e1.stands S.bc S.lits (depth + e.cells) (depth + e.cells + 1)) p
      (v :: (r.cells ++ rts)) (evalExpr S.host e1 (some v)))
    (he2 : ∀ r : Ref, r.Of e → ∀ v w p, S.Gives (e2.stands S.bc S.lits (depth + e.cells) (depth + e.cells + 2)) p
      (w :: v :: (r.cells ++ rts)) (evalExpr S.host e2 (some v))) :
    S.Does ((Expr.range e e1 e2).targetStands S.bc S.lits false saved depth) pc' rts rts
      (evalTarget S.host (.range e e1 e2) dollar) (Aimed (.range e e1 e2) pc' rts) := by
  rw [evalTarget]
  refine aims_above he haims ((e1.forward _ _).cons ((e2.forward _ _).cons .nil)) fun r v hr hcells hv => ?_
  refine .eval (he1 r hr v) ((e2.forward _ _).cons .nil) ((Over.values hcells).push hv) fun i hi => ?_
  refine .eval (he2 r hr v i) .nil (((Over.values hcells).push hv).push hi) fun j hj => ?_
  rintro n pc st temp rfl hlt hst
  exact .pure hst ⟨hr, .cons hj (.cons hi (.cons hv hcells)), temp, rfl⟩

/-! ### Defaults -/

/-- If no optional target has a value, then the defaults are needed from the first one on. -/
theorem entry_zero : ∀ (sc : Scatter) {places : List Nat} {p : Nat},
    sc.stands S.bc S.lits places saved depth p pc' → sc.entry places 0 pc' = p
  | .nil, _, _, h => h
  | .cons .optional _ (some e) next, places, p, ⟨_, ⟨hhead, rfl⟩, _⟩ => by
      cases places with
      | nil => cases hhead
      | cons place places => exact Option.some.inj hhead
  | .cons .optional _ none next, places, p, h => entry_zero next h
  | .cons .required _ _ next, places, p, h => entry_zero next h
  | .cons .rest _ _ next, places, p, h => entry_zero next h

/-- One default, and those behind it. -/
theorem carries_default {slot : Nat} {next : Scatter} {places : List Nat}
    (he : ∀ p, S.Gives (e.stands S.bc S.lits saved depth) p rts (evalExpr S.host e dollar))
    (hnext : ∀ n p st temp, next.stands S.bc S.lits places.tail saved depth p pc' → st.Sane S.sane →
      S.Carries n (.run (st.machine (next.entry places.tail 0 pc') rts temp)) (evalDefaults S.host next 0 dollar) st rts
        (Behind pc' rts)) {n p : Nat} {st : Store W} {temp : Var} (hlt : pc' < S.bc.vector.length) (hst : st.Sane S.sane)
    (h : (Scatter.cons .optional slot (some e) next).stands S.bc S.lits places saved depth p pc') :
    S.Carries n (.run (st.machine p rts temp)) (evalDefaults S.host (.cons .optional slot (some e) next) 0 dollar) st
      rts (Behind pc' rts) := by
  obtain ⟨_, ⟨-, rfl⟩, p1, hstands, p2, hput, p3, hpop, _, hrest, rfl⟩ := h
  have hp2 : p2 < S.bc.vector.length := by
    have := forward_byte _ _ hpop
    have := next.forward _ _ _ _ _ hrest
    omega
  have hp1 := Nat.lt_of_le_of_lt (forward_varOp _ _ hput) hp2
  rw [evalDefaults]
  refine .seq (he p1 n _ st temp hstands hp1 hst) ?_
  rintro v st' _ hst' ⟨hv, temp', rfl⟩
  refine .before (leads_put hput hp2) (.step (step_pop hpop) ?_)
  have hcarries := hnext n p3 _ temp' hrest (hst'.assign hv slot)
  rw [entry_zero next hrest] at hcarries
  exact hcarries

end

/-! ### Trees without parts, and lists -/

section

variable {S : Setting W} {pc' : Nat} {rts : List Var} {args : ArgList} {dollar : Option Var} {saved depth : Int}

theorem gives_var (v : Var) : S.Gives ((Expr.var v).stands S.bc S.lits saved depth) pc' rts
    (evalExpr S.host (.var v) dollar) := by
  rw [evalExpr_var]
  exact gives_literal

theorem gives_slot (slot : Nat) : S.Gives ((Expr.id slot).stands S.bc S.lits saved depth) pc' rts
    (evalExpr S.host (.id slot) dollar) := by
  rw [evalExpr]
  exact gives_id slot

theorem gives_dollar (hcells : Cells true dollar saved depth rts) :
    S.Gives (Expr.length.stands S.bc S.lits saved depth) pc' rts (evalExpr S.host .length dollar) := by
  obtain ⟨v, rfl⟩ := Option.isSome_iff_exists.mp (hcells.known rfl)
  rw [evalExpr]
  exact gives_length (hcells.cell v rfl).2

theorem gives_list (hargs : S.Gives (args.stands S.bc S.lits true saved depth) pc' rts (evalArgs S.host args none dollar)) :
    S.Gives ((Expr.list args).stands S.bc S.lits saved depth) pc' rts (evalExpr S.host (.list args) dollar) := by
  rw [evalExpr]
  exact hargs

theorem does_noExcept {exc : Exception} (hexc : exc.Ordinary) :
    S.Does (exceptStands S.bc S.lits none saved depth) pc' (exc.value :: rts) rts (evalExcept S.host none exc dollar)
      (Value pc' rts) := by
  rw [evalExcept_none]
  exact does_exceptNone hexc

end

theorem range_ne_scatter (base e1 e2 : Expr) (sc : Scatter) : Expr.range base e1 e2 ≠ .scatter sc := fun h => by cases h

/-- The list of the arguments before is one cell. -/
theorem list_cells (list : Option Var) : ((list.toList.length : Nat) : Int) = if list.isNone then 0 else 1 := by
  cases list <;> rfl

theorem no_argument {p : Var → Prop} : ∀ w ∈ (none : Option Var), p w := fun _ h => by cases h

theorem one_argument {v : Var} (hv : v.ordinary = true) : ∀ w ∈ some v, w.ordinary = true :=
  fun _ h => Option.some.inj h ▸ hv

/-! ### The defaults that are needed -/

/-- From the entry of the defaults, those that are needed are run. -/
def Setting.Fills (S : Setting W) (sc : Scatter) (dollar : Option Var) (places : List Nat) (saved depth : Int)
    (rts : List Var) : Prop :=
  ∀ (avail n p pc' : Nat) (st : Store W) (temp : Var), sc.stands S.bc S.lits places saved depth p pc' →
    pc' < S.bc.vector.length → st.Sane S.sane →
    S.Carries n (.run (st.machine (sc.entry places avail pc') rts temp)) (evalDefaults S.host sc avail dollar) st rts
      (Behind pc' rts)

section

variable {S : Setting W} {rts : List Var} {e : Expr} {next : Scatter} {dollar : Option Var} {places : List Nat}
  {saved depth : Int}

theorem fills_nil : S.Fills .nil dollar places saved depth rts := by
  intro avail n p pc' st temp _ _ hst
  rw [evalDefaults_nil]
  exact .pure hst ⟨temp, rfl⟩

theorem fills_target {kind : ScatterKind} {slot : Nat} (hnext : S.Fills next dollar places saved depth rts) :
    S.Fills (.cons kind slot none next) dollar places saved depth rts := by
  intro avail n p pc' st temp h hlt hst
  cases kind with
  | required | rest =>
      rw [evalDefaults]
      · exact hnext avail n p pc' st temp h hlt hst
      all_goals (intros; contradiction)
  | optional =>
      rw [evalDefaults]
      · exact hnext (avail - 1) n p pc' st temp h hlt hst
      all_goals (intros; contradiction)

theorem fills_default {kind : ScatterKind} {slot : Nat}
    (he : ∀ p, S.Gives (e.stands S.bc S.lits saved depth) p rts (evalExpr S.host e dollar))
    (hnext : ∀ places, S.Fills next dollar places saved depth rts) :
    S.Fills (.cons kind slot (some e) next) dollar places saved depth rts := by
  intro avail n p pc' st temp h hlt hst
  cases kind with
  | required | rest =>
      rw [evalDefaults]
      · exact hnext places avail n p pc' st temp h hlt hst
      all_goals (intros; contradiction)
  | optional =>
      cases avail with
      | zero =>
          have hentry := entry_zero _ h
          rw [hentry]
          exact carries_default he (fun n p st temp hrest hst => hnext places.tail 0 n p pc' st temp hrest hlt hst) hlt hst h
      | succ avail =>
          obtain ⟨_, ⟨hhead, rfl⟩, p1, hstands, p2, hput, p3, hpop, _, hrest, rfl⟩ := h
          rw [evalDefaults]
          · cases places with
            | nil => cases hhead
            | cons place places => exact hnext places avail n p3 _ st temp hrest hlt hst
          all_goals (intros; contradiction)

end

/-! ## Trees -/

section

variable {S : Setting W}

mutual

/-- The code of an expression puts its value on the stack. -/
theorem Expr.Valid.runs {flag : Bool} : ∀ {e : Expr}, e.Valid flag → e.Plain → ∀ {dollar : Option Var}
    {saved depth : Int} {rts : List Var}, Cells flag dollar saved depth rts → ∀ pc',
    S.Gives (e.stands S.bc S.lits saved depth) pc' rts (evalExpr S.host e dollar)
  | .var w, .var, _, _, _, _, _, _, _ => gives_var w
  | .id i, .id, _, _, _, _, _, _, _ => gives_slot i
  | .length, .length, _, _, _, _, _, hcells, _ => gives_dollar hcells
  | .negate _, .negate he, hp, _, _, _, _, hcells, pc' => gives_negate (he.runs hp hcells)
  | .not _, .not he, hp, _, _, _, _, hcells, pc' => gives_not (he.runs hp hcells)
  | .binary kind _ _, .binary hlhs hrhs, hp, _, _, _, _, hcells, pc' =>
      gives_binary kind (hlhs.runs hp.1 hcells) fun v => hrhs.runs hp.2 (hcells.push v)
  | .and _ _, .and hlhs hrhs, hp, _, _, _, _, hcells, pc' =>
      gives_and (hlhs.runs hp.1 hcells) (hrhs.runs hp.2 hcells pc')
  | .or _ _, .or hlhs hrhs, hp, _, _, _, _, hcells, pc' =>
      gives_or (hlhs.runs hp.1 hcells) (hrhs.runs hp.2 hcells pc')
  | .prop _ _, .prop hlhs hrhs, hp, _, _, _, _, hcells, pc' =>
      gives_prop (hlhs.runs hp.1 hcells) fun v => hrhs.runs hp.2 (hcells.push v)
  | .index _ _, .index hlhs hrhs, hp, _, _, _, _, hcells, pc' =>
      gives_index (hlhs.runs hp.1 hcells) fun v => hrhs.runs hp.2 (hcells.index v)
  | .range _ _ _, .range hbase hfrom hto, hp, _, _, _, _, hcells, pc' =>
      gives_range (hbase.runs hp.1 hcells) (fun v => hfrom.runs hp.2.1 (hcells.index v))
        fun v w => hto.runs hp.2.2 ((hcells.index v).push' w)
  | .list _, .list hargs, hp, _, _, _, _, hcells, pc' =>
      gives_list (hargs.runs hp none no_argument hcells pc')
  | .call _ _, .call hargs, hp, _, _, _, _, hcells, pc' =>
      gives_call hp.1 (hargs.runs hp.2 none no_argument hcells)
  | .verb _ _ _, .verb hobj hverb hargs, hp, _, _, _, _, hcells, pc' =>
      gives_verb (hobj.runs hp.1 hcells) (fun v => hverb.runs hp.2.1 (hcells.push v))
        fun v w => hargs.runs hp.2.2 none no_argument ((hcells.push v).push' w)
  | .cond _ _ _, .cond he he1 he2, hp, _, _, _, _, hcells, pc' =>
      gives_cond (he.runs hp.1 hcells) (he1.runs hp.2.1 hcells) (he2.runs hp.2.2 hcells pc')
  | .asgn _ _, .asgn hlhs hrhs, hp, _, _, _, _, hcells, pc' =>
      gives_asgn hlhs.ne_scatter (hlhs.runs hp.1 hcells) fun _ hr => hrhs.runs hp.2 (hcells.append hr.length)
  | .asgn (.range base from' to') _, .asgnRange hbase hfrom hto hrhs, hp, _, _, _, _, hcells, pc' =>
      gives_asgn (range_ne_scatter base from' to')
        (fun _ => aims_range hbase (hbase.runs hp.1.1 hcells)
          (fun _ hr v => hfrom.runs hp.1.2.1 ((hcells.append hr.length).index v))
          fun _ hr v w => hto.runs hp.1.2.2 (((hcells.append hr.length).index v).push' w))
        fun _ hr => hrhs.runs hp.2 (hcells.append hr.length)
  | .asgn (.scatter _) _, .asgnScatter hsc hrhs, hp, _, _, _, _, hcells, pc' =>
      gives_scatter hp.1.1 hp.1.2.1 (hrhs.runs hp.2 hcells) fun v _ avail n p st temp =>
        hsc.runs hp.1.2.2 (hcells.push v) avail n p pc' st temp
  | .catch _ _ none, .catch he hcodes, hp, _, _, _, _, hcells, pc' =>
      gives_catch (hcodes.handlerRuns hp.2.1 hcells) (fun v w x => he.runs hp.1 (hcells.append (J := [v, w, x]) rfl))
        fun _ hexc => does_noExcept hexc
  | .catch _ _ (some _), .catchDefault he hcodes he', hp, _, _, _, _, hcells, pc' =>
      gives_catch (hcodes.handlerRuns hp.2.1 hcells) (fun v w x => he.runs hp.1 (hcells.append (J := [v, w, x]) rfl))
        fun exc _ => does_except (he'.runs hp.2.2 hcells pc') exc

/-- The code of a target puts its parts on the stack. -/
theorem Expr.Target.runs {flag : Bool} : ∀ {e : Expr}, e.Target flag → e.Plain → ∀ {dollar : Option Var}
    {saved depth : Int} {rts : List Var}, Cells flag dollar saved depth rts → ∀ pc',
    S.Does (e.targetStands S.bc S.lits false saved depth) pc' rts rts (evalTarget S.host e dollar) (Aimed e pc' rts)
  | .id _, .id, _, _, _, _, _, _, _ => aims_id
  | .prop _ _, .prop hlhs hrhs, hp, _, _, _, _, hcells, _ =>
      aims_prop (hlhs.runs hp.1 hcells) fun v => hrhs.runs hp.2 (hcells.push v)
  | .index _ _, .index hlhs hrhs, hp, _, _, _, _, hcells, _ =>
      aims_index hlhs (hlhs.runs hp.1 hcells) fun _ hr v => hrhs.runs hp.2 ((hcells.append hr.length).index v)

/-- The code of arguments puts their list on the stack, in place of the list of those before them. -/
theorem ArgList.Valid.runs {flag : Bool} : ∀ {args : ArgList}, args.Valid flag → args.Plain → ∀ (list : Option Var),
    (∀ w ∈ list, w.ordinary = true) → ∀ {dollar : Option Var} {saved depth : Int} {rts : List Var},
    Cells flag dollar saved depth rts → ∀ pc',
    S.Does (args.stands S.bc S.lits list.isNone saved depth) pc' (list.toList ++ rts) rts
      (evalArgs S.host args list dollar) (Value pc' rts)
  | .nil, .nil, _, _, hlist, _, _, _, _, _, _ => does_noArgs hlist
  | .cons _ _ _, .cons he hnext, hp, list, hlist, _, _, _, _, hcells, pc' =>
      does_args hlist (he.runs hp.1 (hcells.append (list_cells list))) fun v hv =>
        hnext.runs hp.2 (some v) (one_argument hv) hcells pc'

/-- The code of the codes of a handler puts them on the stack. -/
theorem ArgList.Valid.handlerRuns {flag : Bool} : ∀ {args : ArgList}, args.Valid flag → args.Plain →
    ∀ {dollar : Option Var} {saved depth : Int} {rts : List Var}, Cells flag dollar saved depth rts → ∀ pc',
    S.Gives (args.handlerStands S.bc S.lits saved depth) pc' rts (evalCodes S.host args dollar)
  | .nil, .nil, _, _, _, _, _, _, _ => gives_any
  | .cons _ _ _, .cons he hnext, hp, _, _, _, _, hcells, pc' =>
      gives_codes (he.runs hp.1 hcells) fun v hv =>
        hnext.runs hp.2 (some v) (one_argument hv) hcells pc'

/-- The code of the defaults that are needed. -/
theorem Scatter.Valid.runs {flag : Bool} : ∀ {sc : Scatter}, sc.Valid flag → sc.Plain → ∀ {dollar : Option Var}
    {places : List Nat} {saved depth : Int} {rts : List Var}, Cells flag dollar saved depth rts →
    S.Fills sc dollar places saved depth rts
  | .nil, .nil, _, _, _, _, _, _, _ => fills_nil
  | .cons _ _ none _, .target hnext, hp, _, _, _, _, _, hcells => fills_target (hnext.runs hp.2 hcells)
  | .cons _ _ (some _) _, .default he hnext, hp, _, _, _, _, _, hcells =>
      fills_default (he.runs hp.1 hcells) fun _ => hnext.runs hp.2 hcells

end

end

end Waverous
