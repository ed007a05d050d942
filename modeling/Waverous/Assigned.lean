import Waverous.ProgramRuns

/-! # Variables that a program leaves alone — `code_gen.c`, `execute.c`

    A variable that no assignment, scatter, loop or handler of a tree names has the same value when the
    frame is left, however it is left; what the world does cannot reach it. -/

namespace Waverous

open Machines
open ActivStack (Reason)

variable {W : Type} {α β : Type}

/-! ## What is named -/

/-- The variable to which a target belongs. -/
def Expr.root : Expr → List Nat
  | .id slot => [slot]
  | .index base _ | .range base _ _ => base.root
  | _ => []

mutual

/-- The variables that an expression may assign to. -/
def Expr.assigned : Expr → List Nat
  | .var _ | .id _ | .length => []
  | .and lhs rhs | .or lhs rhs | .binary _ lhs rhs | .prop lhs rhs | .index lhs rhs => lhs.assigned ++ rhs.assigned
  | .asgn lhs rhs => lhs.root ++ (lhs.assigned ++ rhs.assigned)
  | .negate e | .not e => e.assigned
  | .range base «from» «to» => base.assigned ++ («from».assigned ++ «to».assigned)
  | .list args | .call _ args => args.assigned
  | .verb obj verb args => obj.assigned ++ (verb.assigned ++ args.assigned)
  | .cond condition consequent alternate => condition.assigned ++ (consequent.assigned ++ alternate.assigned)
  | .catch e codes except => codes.assigned ++ (e.assigned ++ defaultAssigned except)
  | .scatter sc => sc.assigned

def defaultAssigned : Option Expr → List Nat
  | none => []
  | some e => e.assigned

def ArgList.assigned : ArgList → List Nat
  | .nil => []
  | .cons _ e next => e.assigned ++ next.assigned

def Scatter.assigned : Scatter → List Nat
  | .nil => []
  | .cons _ id default next => id :: (defaultAssigned default ++ next.assigned)

end

mutual

/-- The same, of a statement. -/
def Stmt.assigned : Stmt → List Nat
  | .cond arms otherwise => arms.assigned ++ otherwise.assigned
  | .list id e body => id :: (e.assigned ++ body.assigned)
  | .range id «from» «to» body => id :: («from».assigned ++ («to».assigned ++ body.assigned))
  | .while id condition body => (if id = -1 then [] else [id.toNat]) ++ (condition.assigned ++ body.assigned)
  | .fork _ _ _ => []
  | .expr e => e.assigned
  | .return e => defaultAssigned e
  | .tryExcept body excepts => body.assigned ++ excepts.assigned
  | .tryFinally body handler => body.assigned ++ handler.assigned
  | .break _ | .continue _ => []

def StmtList.assigned : StmtList → List Nat
  | .nil => []
  | .cons stmt next => stmt.assigned ++ next.assigned

def CondArm.assigned : CondArm → List Nat
  | .nil => []
  | .cons condition stmts next => condition.assigned ++ (stmts.assigned ++ next.assigned)

def ExceptArm.assigned : ExceptArm → List Nat
  | .nil => []
  | .cons id codes stmts next =>
      (if 0 ≤ id then [id.toNat] else []) ++ (codes.assigned ++ (stmts.assigned ++ next.assigned))

end

/-! ## Leaving a variable alone -/

/-- However it ends, the variable is what it was, and a result is as `good` says. -/
def Eval.Keeps (slot : Nat) (m : Eval W α) (good : α → Prop) : Prop :=
  ∀ st r, m st = some r → r.2.env[slot]? = st.env[slot]? ∧ ∀ a, r.1 = .ok a → good a

/-- The same, of any result. -/
abbrev Eval.Spares (slot : Nat) (m : Eval W α) : Prop := m.Keeps slot fun _ => True

section

variable {host : Host W} {slot : Nat} {m : Eval W α} {f : α → Eval W β} {good : α → Prop} {good' : β → Prop}

theorem Eval.Keeps.pure {a : α} (h : good a) : (Pure.pure a : Eval W α).Keeps slot good := by
  rintro st r ⟨⟩
  exact ⟨rfl, fun _ h' => by cases h'; exact h⟩

/-- Without a result. -/
theorem keeps_error (why : Stop) (st st' : Store W) (henv : st'.env[slot]? = st.env[slot]?) {r : Except Stop α × Store W}
    (h : some (.error why, st') = some r) : r.2.env[slot]? = st.env[slot]? ∧ ∀ a, r.1 = .ok a → good a := by
  cases h
  exact ⟨henv, fun _ h' => by cases h'⟩

theorem Eval.Keeps.bind (hm : m.Keeps slot good) (hf : ∀ a, good a → (f a).Keeps slot good') :
    (m >>= f).Keeps slot good' := by
  intro st r h
  rw [eval_bind] at h
  obtain ⟨⟨r1, st1⟩, h1, h2⟩ := Option.bind_eq_some_iff.mp h
  obtain ⟨henv, hgood⟩ := hm st _ h1
  cases r1 with
  | ok a =>
      obtain ⟨henv', hgood'⟩ := hf a (hgood a rfl) st1 r h2
      exact ⟨henv'.trans henv, hgood'⟩
  | error why => exact keeps_error why st st1 henv h2

theorem Eval.Keeps.weaken {good1 : α → Prop} (hm : m.Keeps slot good) (h : ∀ a, good a → good1 a) :
    m.Keeps slot good1 := fun st r hr => ⟨(hm st r hr).1, fun a ha => h a ((hm st r hr).2 a ha)⟩

theorem keeps_stop (why : Stop) : (stop why : Eval W α).Keeps slot good := fun st _ h => keeps_error why st st rfl h

theorem keeps_raise (r : Raise) : (raise host r : Eval W α).Keeps slot good := fun st _ h =>
  keeps_error (.raised ⟨r, (host.traceback st.world).1⟩) st { st with world := (host.traceback st.world).2 } rfl h

theorem keeps_fail (e : Error) : (failWith host e).Spares slot := by
  unfold failWith
  split
  · exact keeps_raise _
  · exact .pure trivial

theorem keeps_give (ans : Answer) : (give host ans).Spares slot := by
  cases ans with
  | value v => exact .pure trivial
  | error e => exact keeps_fail e
  | trap => exact keeps_stop _

theorem keeps_reply (reply : Reply) : (giveReply host reply).Spares slot := by
  cases reply with
  | value v => exact .pure trivial
  | error e => exact keeps_fail e
  | raise r =>
      show Eval.Keeps slot (if host.debug = true then raise host r else Pure.pure r.code) _
      split
      · exact keeps_raise r
      · exact .pure trivial
  | unwound r => exact keeps_raise r
  | killed => exact keeps_stop _

theorem get_run (f : Store W → Eval W α) (st : Store W) : (get >>= f) st = f st st := rfl

/-- What is run depends on the store. -/
theorem keeps_get {f : Store W → Eval W α} (h : ∀ st, (f st).Keeps slot good) : (get >>= f).Keeps slot good := by
  intro st r hr
  rw [get_run] at hr
  exact h st st r hr

theorem keeps_getVar (id : Nat) : (getVar host id).Spares slot := by
  refine keeps_get fun st => ?_
  split
  · exact keeps_fail _
  · exact .pure trivial
  · exact keeps_stop _

theorem keeps_setVar {id : Nat} (hid : slot ≠ id) (v : Var) : (setVar id v : Eval W Unit).Spares slot := by
  rintro st r ⟨⟩
  exact ⟨List.getElem?_set_ne (Ne.symm hid), fun _ _ => trivial⟩

theorem keeps_getProp (obj name : Var) : (getPropValue host obj name).Spares slot :=
  keeps_get fun _ => keeps_give _

theorem keeps_setProp (obj name v : Var) : (setProp host obj name v).Spares slot :=
  fun st r hr => keeps_give (putPropAnswer host st.world obj name v).1
    { st with world := (putPropAnswer host st.world obj name v).2 } r hr

theorem keeps_callVerb (obj verb args : Var) : (callVerb host obj verb args).Spares slot :=
  fun st r hr => keeps_reply (callVerbReply host st.world obj verb args).1
    { st with world := (callVerbReply host st.world obj verb args).2 } r hr

theorem keeps_callBuiltIn (func : Nat) (args : Var) : (callBuiltIn host func args).Spares slot :=
  fun st r hr => keeps_reply (callBiFuncReply host st.world func args).1
    { st with world := (callBiFuncReply host st.world func args).2 } r hr

theorem keeps_handle {handler : Exception → Option (Eval W α)} (hm : m.Keeps slot good)
    (hnext : ∀ exc next, handler exc = some next → next.Keeps slot good) : (handle m handler).Keeps slot good := by
  intro st r h
  rw [handle_bind] at h
  obtain ⟨⟨r1, st1⟩, h1, h2⟩ := Option.bind_eq_some_iff.mp h
  obtain ⟨henv, hgood⟩ := hm st _ h1
  cases r1 with
  | ok a =>
      cases h2
      exact ⟨henv, hgood⟩
  | error why =>
      cases why with
      | killed | trapped => exact keeps_error _ st st1 henv h2
      | raised exc =>
          have h2' : (handler exc).elim (some (.error (.raised exc), st1)) (fun next => next st1) = some r := h2
          cases hhandler : handler exc with
          | none =>
              rw [hhandler] at h2'
              exact keeps_error _ st st1 henv h2'
          | some next =>
              rw [hhandler] at h2'
              obtain ⟨henv', hgood'⟩ := hnext exc next hhandler st1 r h2'
              exact ⟨henv'.trans henv, hgood'⟩

theorem keeps_failFlow (e : Error) : (failFlow host e).Spares slot := by
  unfold failFlow
  split
  · exact keeps_raise _
  · exact .pure trivial

end

/-! ## Assignments -/

section

variable {host : Host W} {slot : Nat} {sc : Scatter} {rest env : List Var}

/-- The variable to which a value is put in the end. -/
def Ref.root : Ref → List Nat
  | .var slot => [slot]
  | .prop _ _ => []
  | .index base _ _ | .range base _ _ _ => base.root

theorem keeps_read (ref : Ref) : (ref.read host).Spares slot := by
  cases ref with
  | var id => exact keeps_getVar id
  | prop obj name => exact keeps_getProp obj name
  | index base value i => exact keeps_give _
  | range base value i j => exact keeps_stop _

theorem keeps_assign {ref : Ref} (h : slot ∉ ref.root) (v : Var) : (ref.assign host v).Spares slot := by
  induction ref generalizing v with
  | var id =>
      rw [Ref.assign]
      exact .bind (keeps_setVar (List.ne_of_not_mem_cons h) v) fun _ _ => .pure trivial
  | prop obj name =>
      rw [Ref.assign]
      exact keeps_setProp obj name v
  | index base value i ih =>
      rw [Ref.assign]
      exact .bind (keeps_give _) fun new _ => ih h new
  | range base value i j ih =>
      rw [Ref.assign]
      exact .bind (keeps_give _) fun new _ => ih h new

theorem not_target {kind : ScatterKind} {id : Nat} {default : Option Expr} {next : Scatter}
    (h : slot ∉ (Scatter.cons kind id default next).assigned) :
    slot ≠ id ∧ slot ∉ defaultAssigned default ∧ slot ∉ next.assigned := by
  rw [Scatter.assigned, List.mem_cons, List.mem_append, not_or, not_or] at h
  exact h

theorem assignTargets_keeps : ∀ (sc : Scatter) {avail : Nat} {values env : List Var}, slot ∉ sc.assigned →
    (assignTargets rest sc avail values env)[slot]? = env[slot]?
  | .nil, _, _, _, _ => rfl
  | .cons .rest _ _ next, _, _, _, h =>
      (assignTargets_keeps next (not_target h).2.2).trans (List.getElem?_set_ne (not_target h).1.symm)
  | .cons .optional _ _ next, 0, _, _, h => assignTargets_keeps next (not_target h).2.2
  | .cons .optional _ _ next, _ + 1, _, _, h =>
      (assignTargets_keeps next (not_target h).2.2).trans (List.getElem?_set_ne (not_target h).1.symm)
  | .cons .required _ _ next, _, _, _, h =>
      (assignTargets_keeps next (not_target h).2.2).trans (List.getElem?_set_ne (not_target h).1.symm)

/-- The values of a scatter go to its targets only. -/
theorem scatterVars_keeps (hsc : slot ∉ sc.assigned) {v : Var} {avail : Nat} {env' : List Var}
    (h : scatterVars sc v env = .ok (.ok (avail, env'))) : env'[slot]? = env[slot]? := by
  cases herror : scatterError sc.nargs sc.nreq sc.hasRest v with
  | some e =>
      rw [scatterVars_error herror] at h
      cases h
  | none =>
      cases v with
      | list l =>
          cases hrest : scatterRest sc l with
          | error f =>
              rw [scatterVars_fault herror hrest] at h
              cases h
          | ok rest =>
              rw [scatterVars_ok herror hrest] at h
              cases h
              exact assignTargets_keeps sc hsc
      | _ => cases herror

theorem keeps_scatter (hsc : slot ∉ sc.assigned) {defaults : Nat → Eval W Unit}
    (hdefaults : ∀ avail, (defaults avail).Spares slot) (v : Var) :
    (assignScatter host sc v defaults).Spares slot := by
  intro st r hr
  rw [assignScatter, get_run] at hr
  cases hvars : scatterVars sc v st.env with
  | error e =>
      rw [hvars] at hr
      exact keeps_fail e st r hr
  | ok vars =>
      rw [hvars] at hr
      cases vars with
      | error f => exact keeps_stop _ st r hr
      | ok vars =>
          obtain ⟨avail, env⟩ := vars
          have hrest : (do defaults avail; pure v : Eval W Var).Spares slot :=
            .bind (hdefaults avail) fun _ _ => .pure trivial
          obtain ⟨henv, hgood⟩ := hrest { st with env := env } r hr
          exact ⟨henv.trans (scatterVars_keeps hsc hvars), hgood⟩

end

/-! ## Loops -/

section

variable {host : Host W} {slot : Nat} {body : Eval W Flow}

/-- All rounds leave alone what one round does. -/
theorem keeps_rounds {round : α → Eval W (Round α)} (h : ∀ a, (round a).Spares slot) (fuel : Nat) (a : α) :
    (runRounds round fuel a).Spares slot := by
  induction fuel generalizing a with
  | zero =>
      intro st r h
      cases h
  | succ fuel ih =>
      rw [runRounds]
      refine .bind (h a) fun r _ => ?_
      cases r with
      | again a => exact ih a
      | done flow => exact .pure trivial

theorem keeps_listRound {id : Nat} (hid : slot ≠ id) (hbody : body.Spares slot) (list : Var) (count : Int32) :
    (listRound host id list body count).Spares slot := by
  unfold listRound
  split
  · split
    · exact .pure trivial
    · split
      · split
        · exact .bind (keeps_setVar hid _) fun _ _ => .bind hbody fun _ _ => .pure trivial
        · exact keeps_stop _
      · exact keeps_stop _
  · exact .bind (keeps_failFlow _) fun _ _ => .pure trivial

theorem keeps_rangeRound {id : Nat} (hid : slot ≠ id) (hbody : body.Spares slot) (last first : Var) :
    (rangeRound host id last body first).Spares slot := by
  unfold rangeRound
  split
  · exact .bind (keeps_failFlow _) fun _ _ => .pure trivial
  · exact .pure trivial
  · exact .bind (keeps_setVar hid _) fun _ _ => .bind hbody fun _ _ => .pure trivial

theorem keeps_whileRound {id : Int} (hid : id = -1 ∨ slot ≠ id.toNat) {condition : Eval W Var}
    (hcondition : condition.Spares slot) (hbody : body.Spares slot) (u : Unit) :
    (whileRound id condition body u).Spares slot := by
  rw [whileRound_eq]
  refine .bind hcondition fun v _ => ?_
  have hnamed : (if id = -1 then pure () else setVar id.toNat v : Eval W Unit).Spares slot := by
    split
    · exact .pure trivial
    · next hnot => exact keeps_setVar (hid.resolve_left hnot) v
  refine .bind hnamed fun _ _ => ?_
  split
  · exact .bind hbody fun _ _ => .pure trivial
  · exact .pure trivial

theorem keeps_finally {handler : Eval W Flow} (hbody : body.Spares slot) (hhandler : handler.Spares slot) :
    (finally' body handler).Spares slot := by
  intro st r h
  rw [finally_bind] at h
  obtain ⟨⟨r1, st1⟩, h1, h2⟩ := Option.bind_eq_some_iff.mp h
  have henv : st1.env[slot]? = st.env[slot]? := (hbody st _ h1).1
  by_cases hr : r1 ≠ .error .killed ∧ r1 ≠ .error .trapped
  · -- whichever of the two results it is, the handler has run last
    rw [lastly_eq hr] at h2
    obtain ⟨⟨r2, st2⟩, hhandled, hr2⟩ := Option.bind_eq_some_iff.mp h2
    cases hr2
    exact ⟨(hhandler st1 _ hhandled).1.trans henv, fun _ _ => trivial⟩
  · have hstop : r1 = .error .killed ∨ r1 = .error .trapped := by
      by_contra hnot
      exact hr ⟨fun hkilled => hnot (.inl hkilled), fun htrapped => hnot (.inr htrapped)⟩
    rcases hstop with rfl | rfl
    · exact keeps_error _ st st1 henv h2
    · exact keeps_error _ st st1 henv h2

end

/-! ## Expressions from their parts -/

section

variable {host : Host W} {slot : Nat} {e e1 e2 lhs rhs : Expr} {args : ArgList} {dollar : Option Var}

theorem keeps_var (v : Var) : (evalExpr host (.var v) dollar).Spares slot := by
  rw [evalExpr_var]
  exact .pure trivial

theorem keeps_id (id : Nat) : (evalExpr host (.id id) dollar).Spares slot := by
  rw [evalExpr]
  exact keeps_getVar id

theorem keeps_length : (evalExpr host .length dollar).Spares slot := by
  cases dollar with
  | none =>
      rw [evalExpr]
      exact keeps_stop _
  | some base =>
      rw [evalExpr]
      exact keeps_give _

theorem keeps_negate (he : (evalExpr host e dollar).Spares slot) : (evalExpr host (.negate e) dollar).Spares slot := by
  rw [evalExpr]
  exact .bind he fun v _ => keeps_give _

theorem keeps_not (he : (evalExpr host e dollar).Spares slot) : (evalExpr host (.not e) dollar).Spares slot := by
  rw [evalExpr]
  exact .bind he fun v _ => keeps_give _

theorem keeps_and (hlhs : (evalExpr host lhs dollar).Spares slot) (hrhs : (evalExpr host rhs dollar).Spares slot) :
    (evalExpr host (.and lhs rhs) dollar).Spares slot := by
  rw [evalExpr]
  refine .bind hlhs fun v _ => ?_
  split
  · exact hrhs
  · exact .pure trivial

theorem keeps_or (hlhs : (evalExpr host lhs dollar).Spares slot) (hrhs : (evalExpr host rhs dollar).Spares slot) :
    (evalExpr host (.or lhs rhs) dollar).Spares slot := by
  rw [evalExpr]
  refine .bind hlhs fun v _ => ?_
  split
  · exact .pure trivial
  · exact hrhs

theorem keeps_binary (kind : BinaryKind) (hlhs : (evalExpr host lhs dollar).Spares slot)
    (hrhs : (evalExpr host rhs dollar).Spares slot) : (evalExpr host (.binary kind lhs rhs) dollar).Spares slot := by
  rw [evalExpr]
  exact .bind hlhs fun v _ => .bind hrhs fun w _ => keeps_give _

theorem keeps_prop (hlhs : (evalExpr host lhs dollar).Spares slot) (hrhs : (evalExpr host rhs dollar).Spares slot) :
    (evalExpr host (.prop lhs rhs) dollar).Spares slot := by
  rw [evalExpr]
  exact .bind hlhs fun obj _ => .bind hrhs fun name _ => keeps_getProp obj name

theorem keeps_index (hlhs : (evalExpr host lhs dollar).Spares slot)
    (hrhs : ∀ v, (evalExpr host rhs (some v)).Spares slot) : (evalExpr host (.index lhs rhs) dollar).Spares slot := by
  rw [evalExpr]
  exact .bind hlhs fun v _ => .bind (hrhs v) fun i _ => keeps_give _

theorem keeps_range (he : (evalExpr host e dollar).Spares slot) (he1 : ∀ v, (evalExpr host e1 (some v)).Spares slot)
    (he2 : ∀ v, (evalExpr host e2 (some v)).Spares slot) : (evalExpr host (.range e e1 e2) dollar).Spares slot := by
  rw [evalExpr]
  exact .bind he fun v _ => .bind (he1 v) fun i _ => .bind (he2 v) fun j _ => keeps_give _

theorem keeps_list (hargs : (evalArgs host args none dollar).Spares slot) :
    (evalExpr host (.list args) dollar).Spares slot := by
  rw [evalExpr]
  exact hargs

theorem keeps_call (func : Nat) (hargs : (evalArgs host args none dollar).Spares slot) :
    (evalExpr host (.call func args) dollar).Spares slot := by
  rw [evalExpr]
  exact .bind hargs fun v _ => keeps_callBuiltIn func v

theorem keeps_verb (hlhs : (evalExpr host lhs dollar).Spares slot) (hrhs : (evalExpr host rhs dollar).Spares slot)
    (hargs : (evalArgs host args none dollar).Spares slot) : (evalExpr host (.verb lhs rhs args) dollar).Spares slot := by
  rw [evalExpr]
  exact .bind hlhs fun obj _ => .bind hrhs fun verb _ => .bind hargs fun v _ => keeps_callVerb obj verb v

theorem keeps_cond (he : (evalExpr host e dollar).Spares slot) (he1 : (evalExpr host e1 dollar).Spares slot)
    (he2 : (evalExpr host e2 dollar).Spares slot) : (evalExpr host (.cond e e1 e2) dollar).Spares slot := by
  rw [evalExpr]
  refine .bind he fun v _ => ?_
  split
  · exact he1
  · exact he2

theorem keeps_asgn (hne : ∀ sc, lhs ≠ .scatter sc) (hroot : slot ∉ lhs.root)
    (hlhs : (evalTarget host lhs dollar).Keeps slot fun ref => ref.root = lhs.root)
    (hrhs : (evalExpr host rhs dollar).Spares slot) : (evalExpr host (.asgn lhs rhs) dollar).Spares slot := by
  have heval : evalExpr host (.asgn lhs rhs) dollar = (do
      let ref ← evalTarget host lhs dollar
      let v ← evalExpr host rhs dollar
      let stored ← ref.assign host v
      pure (ref.result v stored)) := by
    rw [evalExpr]
    exact hne
  rw [heval]
  refine .bind hlhs fun ref href => .bind hrhs fun v _ => .bind (keeps_assign ?_ v) fun _ _ => .pure trivial
  rw [href]
  exact hroot

theorem keeps_asgnScatter {sc : Scatter} (hsc : slot ∉ sc.assigned) (hrhs : (evalExpr host rhs dollar).Spares slot)
    (hdefaults : ∀ avail, (evalDefaults host sc avail dollar).Spares slot) :
    (evalExpr host (.asgn (.scatter sc) rhs) dollar).Spares slot := by
  rw [evalExpr]
  exact .bind hrhs fun v _ => keeps_scatter hsc hdefaults v

theorem keeps_catch {except : Option Expr} (hcodes : (evalCodes host args dollar).Spares slot)
    (he : (evalExpr host e dollar).Spares slot) (hexcept : ∀ exc, (evalExcept host except exc dollar).Spares slot) :
    (evalExpr host (.catch e args except) dollar).Spares slot := by
  rw [evalExpr]
  refine .bind hcodes fun codes _ => keeps_handle he fun exc next hnext => ?_
  split at hnext
  · cases hnext
    exact hexcept exc
  · cases hnext

theorem keeps_noExcept (exc : Exception) : (evalExcept host none exc dollar).Spares slot := by
  rw [evalExcept_none]
  exact .pure trivial

theorem keeps_except (he : (evalExpr host e dollar).Spares slot) (exc : Exception) :
    (evalExcept host (some e) exc dollar).Spares slot := by
  rw [evalExcept]
  exact he

theorem keeps_noArgs (list : Option Var) : (evalArgs host .nil list dollar).Spares slot := by
  rw [evalArgs_nil]
  exact .pure trivial

theorem keeps_args (kind : ArgKind) (list : Option Var) (he : (evalExpr host e dollar).Spares slot)
    (hargs : ∀ v, (evalArgs host args (some v) dollar).Spares slot) :
    (evalArgs host (.cons kind e args) list dollar).Spares slot := by
  rw [evalArgs]
  exact .bind he fun v _ => .bind (keeps_give _) fun w _ => hargs w

theorem keeps_any : (evalCodes host .nil dollar).Spares slot := by
  rw [evalCodes_nil]
  exact .pure trivial

theorem keeps_codes (kind : ArgKind) (he : (evalExpr host e dollar).Spares slot)
    (hargs : ∀ v, (evalArgs host args (some v) dollar).Spares slot) :
    (evalCodes host (.cons kind e args) dollar).Spares slot := by
  rw [evalCodes]
  exact .bind he fun v _ => .bind (keeps_give _) fun w _ => hargs w

theorem keeps_targetId (id : Nat) : (evalTarget host (.id id) dollar).Keeps slot fun ref => ref.root = [id] := by
  rw [evalTarget_id]
  exact .pure rfl

theorem keeps_targetProp (hlhs : (evalExpr host lhs dollar).Spares slot) (hrhs : (evalExpr host rhs dollar).Spares slot) :
    (evalTarget host (.prop lhs rhs) dollar).Keeps slot fun ref => ref.root = [] := by
  rw [evalTarget]
  exact .bind hlhs fun _ _ => .bind hrhs fun _ _ => .pure rfl

theorem keeps_targetIndex (hlhs : (evalTarget host lhs dollar).Keeps slot fun ref => ref.root = lhs.root)
    (hrhs : ∀ v, (evalExpr host rhs (some v)).Spares slot) :
    (evalTarget host (.index lhs rhs) dollar).Keeps slot fun ref => ref.root = lhs.root := by
  rw [evalTarget]
  exact .bind hlhs fun ref href => .bind (keeps_read ref) fun v _ => .bind (hrhs v) fun _ _ => .pure href

theorem keeps_targetRange (he : (evalTarget host e dollar).Keeps slot fun ref => ref.root = e.root)
    (he1 : ∀ v, (evalExpr host e1 (some v)).Spares slot) (he2 : ∀ v, (evalExpr host e2 (some v)).Spares slot) :
    (evalTarget host (.range e e1 e2) dollar).Keeps slot fun ref => ref.root = e.root := by
  rw [evalTarget]
  exact .bind he fun ref href => .bind (keeps_read ref) fun v _ => .bind (he1 v) fun _ _ => .bind (he2 v) fun _ _ =>
    .pure href

theorem keeps_noDefaults (avail : Nat) : (evalDefaults host .nil avail dollar).Spares slot := by
  rw [evalDefaults_nil]
  exact .pure trivial

theorem keeps_noDefault {kind : ScatterKind} {id : Nat} {next : Scatter}
    (hnext : ∀ avail, (evalDefaults host next avail dollar).Spares slot) (avail : Nat) :
    (evalDefaults host (.cons kind id none next) avail dollar).Spares slot := by
  cases kind with
  | required | rest =>
      rw [evalDefaults]
      · exact hnext avail
      all_goals (intros; contradiction)
  | optional =>
      rw [evalDefaults]
      · exact hnext (avail - 1)
      all_goals (intros; contradiction)

theorem keeps_default {kind : ScatterKind} {id : Nat} {next : Scatter} (hid : slot ≠ id)
    (he : (evalExpr host e dollar).Spares slot) (hnext : ∀ avail, (evalDefaults host next avail dollar).Spares slot)
    (avail : Nat) : (evalDefaults host (.cons kind id (some e) next) avail dollar).Spares slot := by
  cases kind with
  | required | rest =>
      rw [evalDefaults]
      · exact hnext avail
      all_goals (intros; contradiction)
  | optional =>
      cases avail with
      | zero =>
          rw [evalDefaults]
          exact .bind he fun v _ => .bind (keeps_setVar hid v) fun _ _ => hnext 0
      | succ avail =>
          rw [evalDefaults]
          · exact hnext avail
          all_goals (intros; contradiction)

end

/-! ## Trees -/

section

variable {host : Host W} {slot : Nat}

theorem not_left {xs ys : List Nat} (h : slot ∉ xs ++ ys) : slot ∉ xs := mt (List.mem_append_left ys) h

theorem not_right {xs ys : List Nat} (h : slot ∉ xs ++ ys) : slot ∉ ys := mt (List.mem_append_right xs) h

mutual

/-- An expression that does not name the variable leaves it alone. -/
theorem Expr.Valid.keeps {flag : Bool} : ∀ {e : Expr}, e.Valid flag → slot ∉ e.assigned → ∀ dollar,
    (evalExpr host e dollar).Spares slot
  | .var v, .var, _, _ => keeps_var v
  | .id id, .id, _, _ => keeps_id id
  | .length, .length, _, _ => keeps_length
  | .negate _, .negate he, h, dollar => keeps_negate (he.keeps h dollar)
  | .not _, .not he, h, dollar => keeps_not (he.keeps h dollar)
  | .binary kind _ _, .binary hlhs hrhs, h, dollar =>
      keeps_binary kind (hlhs.keeps (not_left h) dollar) (hrhs.keeps (not_right h) dollar)
  | .and _ _, .and hlhs hrhs, h, dollar => keeps_and (hlhs.keeps (not_left h) dollar) (hrhs.keeps (not_right h) dollar)
  | .or _ _, .or hlhs hrhs, h, dollar => keeps_or (hlhs.keeps (not_left h) dollar) (hrhs.keeps (not_right h) dollar)
  | .prop _ _, .prop hlhs hrhs, h, dollar =>
      keeps_prop (hlhs.keeps (not_left h) dollar) (hrhs.keeps (not_right h) dollar)
  | .index _ _, .index hlhs hrhs, h, dollar =>
      keeps_index (hlhs.keeps (not_left h) dollar) fun v => hrhs.keeps (not_right h) (some v)
  | .range _ _ _, .range hbase hfrom hto, h, dollar =>
      keeps_range (hbase.keeps (not_left h) dollar) (fun v => hfrom.keeps (not_left (not_right h)) (some v))
        fun v => hto.keeps (not_right (not_right h)) (some v)
  | .list _, .list hargs, h, dollar => keeps_list (hargs.keeps h none dollar)
  | .call func _, .call hargs, h, dollar => keeps_call func (hargs.keeps h none dollar)
  | .verb _ _ _, .verb hobj hverb hargs, h, dollar =>
      keeps_verb (hobj.keeps (not_left h) dollar) (hverb.keeps (not_left (not_right h)) dollar)
        (hargs.keeps (not_right (not_right h)) none dollar)
  | .cond _ _ _, .cond he he1 he2, h, dollar =>
      keeps_cond (he.keeps (not_left h) dollar) (he1.keeps (not_left (not_right h)) dollar)
        (he2.keeps (not_right (not_right h)) dollar)
  | .asgn _ _, .asgn hlhs hrhs, h, dollar =>
      keeps_asgn hlhs.ne_scatter (not_left h) (hlhs.keeps (not_left (not_right h)) dollar)
        (hrhs.keeps (not_right (not_right h)) dollar)
  | .asgn (.range base from' to') _, .asgnRange hbase hfrom hto hrhs, h, dollar =>
      have hlhs : slot ∉ base.assigned ++ (from'.assigned ++ to'.assigned) := not_left (not_right h)
      keeps_asgn (range_ne_scatter base from' to') (not_left h)
        (keeps_targetRange (hbase.keeps (not_left hlhs) dollar)
          (fun v => hfrom.keeps (not_left (not_right hlhs)) (some v))
          fun v => hto.keeps (not_right (not_right hlhs)) (some v))
        (hrhs.keeps (not_right (not_right h)) dollar)
  | .asgn (.scatter _) _, .asgnScatter hsc hrhs, h, dollar =>
      keeps_asgnScatter (not_left (not_right h)) (hrhs.keeps (not_right (not_right h)) dollar)
        fun avail => hsc.keeps (not_left (not_right h)) avail dollar
  | .catch _ _ none, .catch he hcodes, h, dollar =>
      keeps_catch (hcodes.codesKeep (not_left h) dollar) (he.keeps (not_left (not_right h)) dollar) keeps_noExcept
  | .catch _ _ (some _), .catchDefault he hcodes he', h, dollar =>
      keeps_catch (hcodes.codesKeep (not_left h) dollar) (he.keeps (not_left (not_right h)) dollar)
        (keeps_except (he'.keeps (not_right (not_right h)) dollar))

theorem Expr.Target.keeps {flag : Bool} : ∀ {e : Expr}, e.Target flag → slot ∉ e.assigned → ∀ dollar,
    (evalTarget host e dollar).Keeps slot fun ref => ref.root = e.root
  | .id id, .id, _, _ => keeps_targetId id
  | .prop _ _, .prop hlhs hrhs, h, dollar =>
      keeps_targetProp (hlhs.keeps (not_left h) dollar) (hrhs.keeps (not_right h) dollar)
  | .index _ _, .index hlhs hrhs, h, dollar =>
      keeps_targetIndex (hlhs.keeps (not_left h) dollar) fun v => hrhs.keeps (not_right h) (some v)

theorem ArgList.Valid.keeps {flag : Bool} : ∀ {args : ArgList}, args.Valid flag → slot ∉ args.assigned →
    ∀ list dollar, (evalArgs host args list dollar).Spares slot
  | .nil, .nil, _, list, _ => keeps_noArgs list
  | .cons kind _ _, .cons he hnext, h, list, dollar =>
      keeps_args kind list (he.keeps (not_left h) dollar) fun v => hnext.keeps (not_right h) (some v) dollar

theorem ArgList.Valid.codesKeep {flag : Bool} : ∀ {args : ArgList}, args.Valid flag → slot ∉ args.assigned →
    ∀ dollar, (evalCodes host args dollar).Spares slot
  | .nil, .nil, _, _ => keeps_any
  | .cons kind _ _, .cons he hnext, h, dollar =>
      keeps_codes kind (he.keeps (not_left h) dollar) fun v => hnext.keeps (not_right h) (some v) dollar

theorem Scatter.Valid.keeps {flag : Bool} : ∀ {sc : Scatter}, sc.Valid flag → slot ∉ sc.assigned →
    ∀ avail dollar, (evalDefaults host sc avail dollar).Spares slot
  | .nil, .nil, _, avail, _ => keeps_noDefaults avail
  | .cons _ _ none _, .target hnext, h, avail, dollar =>
      keeps_noDefault (fun avail => hnext.keeps (not_target h).2.2 avail dollar) avail
  | .cons _ _ (some _) _, .default he hnext, h, avail, dollar =>
      keeps_default (not_target h).1 (he.keeps (not_target h).2.1 dollar)
        (fun avail => hnext.keeps (not_target h).2.2 avail dollar) avail

end

end

/-! ## Statements -/

section

variable {host : Host W} {slot fuel : Nat} {e e1 e2 : Expr} {body stmts handler : StmtList} {excepts next : ExceptArm}
  {arms : CondArm} {otherwise : Eval W Flow}

theorem keeps_forList {id : Nat} (hid : slot ≠ id) (he : (evalExpr host e none).Spares slot)
    (hbody : (execStmts host fuel body).Spares slot) : (execStmt host fuel (.list id e body)).Spares slot := by
  rw [execStmt]
  exact .bind he fun v _ => keeps_rounds (keeps_listRound hid hbody v) fuel 1

theorem keeps_forRange {id : Nat} (hid : slot ≠ id) (he1 : (evalExpr host e1 none).Spares slot)
    (he2 : (evalExpr host e2 none).Spares slot) (hbody : (execStmts host fuel body).Spares slot) :
    (execStmt host fuel (.range id e1 e2 body)).Spares slot := by
  rw [execStmt]
  exact .bind he1 fun v _ => .bind he2 fun w _ => keeps_rounds (keeps_rangeRound hid hbody w) fuel v

theorem not_named {id : Int} {ids : List Nat} (h : slot ∉ (if id = -1 then [] else [id.toNat]) ++ ids) :
    id = -1 ∨ slot ≠ id.toNat := by
  by_cases hid : id = -1
  · exact .inl hid
  · rw [if_neg hid] at h
    exact .inr (List.ne_of_not_mem_cons h)

theorem keeps_while {id : Int} (hid : id = -1 ∨ slot ≠ id.toNat) (he : (evalExpr host e none).Spares slot)
    (hbody : (execStmts host fuel body).Spares slot) : (execStmt host fuel (.while id e body)).Spares slot := by
  rw [execStmt]
  exact keeps_rounds (keeps_whileRound hid he hbody) fuel ()

theorem keeps_fork (id : Int) : (execStmt host fuel (.fork id e body)).Spares slot := by
  rw [execStmt]
  exact keeps_stop _

theorem keeps_expr (he : (evalExpr host e none).Spares slot) : (execStmt host fuel (.expr e)).Spares slot := by
  rw [execStmt]
  exact .bind he fun _ _ => .pure trivial

theorem keeps_return (he : (evalExpr host e none).Spares slot) : (execStmt host fuel (.return (some e))).Spares slot := by
  rw [execStmt]
  exact .bind he fun _ _ => .pure trivial

theorem keeps_return0 : (execStmt host fuel (.return none)).Spares slot := by
  rw [execStmt]
  exact .pure trivial

theorem keeps_break (exit : Int) : (execStmt host fuel (.break exit)).Spares slot := by
  rw [execStmt_break]
  exact .pure trivial

theorem keeps_continue (exit : Int) : (execStmt host fuel (.continue exit)).Spares slot := by
  rw [execStmt]
  exact .pure trivial

/-- All handlers leave the variable alone. -/
def HandlersKeep (slot : Nat) (handlers : List (Var × (Exception → Eval W Flow))) : Prop :=
  ∀ handler ∈ handlers, ∀ exc, (handler.2 exc).Spares slot

theorem firstHandler_mem {code : Var} {a : α} : ∀ {handlers : List (Var × α)}, firstHandler code handlers = some a →
    ∃ handler ∈ handlers, handler.2 = a
  | (codes, b) :: rest, h => by
      rw [firstHandler] at h
      split at h
      · cases h
        exact ⟨_, List.mem_cons_self, rfl⟩
      · obtain ⟨handler, hmem, heq⟩ := firstHandler_mem h
        exact ⟨handler, List.mem_cons_of_mem _ hmem, heq⟩

theorem keeps_tryExcept (hbody : (execStmts host fuel body).Spares slot)
    (hcodes : (execCodes host fuel excepts).Keeps slot (HandlersKeep slot)) :
    (execStmt host fuel (.tryExcept body excepts)).Spares slot := by
  rw [execStmt]
  refine .bind hcodes fun handlers hhandlers => keeps_handle hbody fun exc next hnext => ?_
  obtain ⟨handler, hfirst, rfl⟩ := Option.map_eq_some_iff.mp hnext
  obtain ⟨h, hmem, rfl⟩ := firstHandler_mem hfirst
  exact hhandlers h hmem exc

theorem keeps_tryFinally (hbody : (execStmts host fuel body).Spares slot)
    (hhandler : (execStmts host fuel handler).Spares slot) :
    (execStmt host fuel (.tryFinally body handler)).Spares slot := by
  rw [execStmt]
  exact keeps_finally hbody hhandler

theorem keeps_ifArms (harms : (execArms host fuel arms (execStmts host fuel stmts)).Spares slot) :
    (execStmt host fuel (.cond arms stmts)).Spares slot := by
  rw [execStmt]
  exact harms

theorem keeps_noStmts : (execStmts host fuel .nil).Spares slot := by
  rw [execStmts_nil]
  exact .pure trivial

theorem keeps_stmts {stmt : Stmt} (hstmt : (execStmt host fuel stmt).Spares slot)
    (hnext : (execStmts host fuel stmts).Spares slot) : (execStmts host fuel (.cons stmt stmts)).Spares slot := by
  rw [execStmts]
  refine .bind hstmt fun flow _ => ?_
  cases flow with
  | normal => exact hnext
  | _ => exact .pure trivial

theorem keeps_noArms (hother : otherwise.Spares slot) : (execArms host fuel .nil otherwise).Spares slot := by
  rw [execArms_nil]
  exact hother

theorem keeps_arm (he : (evalExpr host e none).Spares slot) (hstmts : (execStmts host fuel stmts).Spares slot)
    (hnext : (execArms host fuel arms otherwise).Spares slot) :
    (execArms host fuel (.cons e stmts arms) otherwise).Spares slot := by
  rw [execArms]
  refine .bind he fun v _ => ?_
  split
  · exact hstmts
  · exact hnext

theorem keeps_noHandlers : (execCodes host fuel .nil).Keeps slot (HandlersKeep slot) := by
  rw [execCodes_nil]
  refine .pure ?_
  intro h hmem
  cases hmem

theorem keeps_handler {id : Int} {codes : ArgList} (hid : slot ∉ if 0 ≤ id then [id.toNat] else [])
    (hcodes : (evalCodes host codes none).Spares slot) (hstmts : (execStmts host fuel stmts).Spares slot)
    (hnext : (execCodes host fuel next).Keeps slot (HandlersKeep slot)) :
    (execCodes host fuel (.cons id codes stmts next)).Keeps slot (HandlersKeep slot) := by
  rw [execCodes]
  refine .bind hcodes fun v _ => .bind hnext fun handlers hhandlers => .pure ?_
  intro h hmem exc
  rcases List.mem_cons.mp hmem with rfl | hmem
  · -- the value of the exception goes to the variable of the handler
    dsimp only
    split
    · next hpos =>
        rw [if_pos hpos] at hid
        exact .bind (keeps_setVar (List.ne_of_not_mem_cons hid) _) fun _ _ => hstmts
    · exact hstmts
  · exact hhandlers h hmem exc

mutual

/-- A statement that does not name the variable leaves it alone. -/
theorem Stmt.Valid.keeps {names : List Int} : ∀ {stmt : Stmt}, stmt.Valid names → slot ∉ stmt.assigned →
    (execStmt host fuel stmt).Spares slot
  | .cond _ _, .cond harms hotherwise, h => keeps_ifArms (harms.keeps (not_left h) (hotherwise.keeps (not_right h)))
  | .list _ _ _, .list he hbody, h =>
      have hrest := List.not_mem_of_not_mem_cons h
      keeps_forList (List.ne_of_not_mem_cons h) (he.keeps (not_left hrest) none) (hbody.keeps (not_right hrest))
  | .range _ _ _ _, .range hfrom hto hbody, h =>
      have hrest := List.not_mem_of_not_mem_cons h
      keeps_forRange (List.ne_of_not_mem_cons h) (hfrom.keeps (not_left hrest) none)
        (hto.keeps (not_left (not_right hrest)) none) (hbody.keeps (not_right (not_right hrest)))
  | .while _ _ _, .while he hbody, h =>
      keeps_while (not_named h) (he.keeps (not_left (not_right h)) none) (hbody.keeps (not_right (not_right h)))
  | .fork id _ _, .fork _ _, _ => keeps_fork id
  | .expr _, .expr he, h => keeps_expr (he.keeps h none)
  | .return (some _), .return he, h => keeps_return (he.keeps h none)
  | .return none, .return0, _ => keeps_return0
  | .tryExcept _ _, .tryExcept hbody hexcepts, h => keeps_tryExcept (hbody.keeps (not_left h)) (hexcepts.keeps (not_right h))
  | .tryFinally _ _, .tryFinally hbody hhandler, h =>
      keeps_tryFinally (hbody.keeps (not_left h)) (hhandler.keeps (not_right h))
  | .break exit, .break _, _ => keeps_break exit
  | .continue exit, .continue _, _ => keeps_continue exit

theorem StmtList.Valid.keeps {names : List Int} : ∀ {stmts : StmtList}, stmts.Valid names → slot ∉ stmts.assigned →
    (execStmts host fuel stmts).Spares slot
  | .nil, .nil, _ => keeps_noStmts
  | .cons _ _, .cons hstmt hnext, h => keeps_stmts (hstmt.keeps (not_left h)) (hnext.keeps (not_right h))

theorem CondArm.Valid.keeps {names : List Int} : ∀ {arms : CondArm}, arms.Valid names → slot ∉ arms.assigned →
    ∀ {otherwise : Eval W Flow}, otherwise.Spares slot → (execArms host fuel arms otherwise).Spares slot
  | .nil, .nil, _, _, hother => keeps_noArms hother
  | .cons _ _ _, .cons he hstmts hnext, h, _, hother =>
      keeps_arm (he.keeps (not_left h) none) (hstmts.keeps (not_left (not_right h)))
        (hnext.keeps (not_right (not_right h)) hother)

theorem ExceptArm.Valid.keeps {names : List Int} : ∀ {excepts : ExceptArm}, excepts.Valid names →
    slot ∉ excepts.assigned → (execCodes host fuel excepts).Keeps slot (HandlersKeep slot)
  | .nil, .nil, _ => keeps_noHandlers
  | .cons _ _ _ _, .cons hcodes hstmts hnext, h =>
      keeps_handler (not_left h) (hcodes.codesKeep (not_left (not_right h)) none)
        (hstmts.keeps (not_left (not_right (not_right h)))) (hnext.keeps (not_right (not_right (not_right h))))

end

end

/-! ## Programs -/

section

variable {stmts : StmtList} {version n slot : Nat} {names : List Str} {prog : Program} {host : Host W} {sane : W → Prop}
  {st : Store W} {temp value : Var} {w : W} {why : Reason} {env : List Var}

/-- The frame is left with the variables that the tree has left. -/
theorem leaves_env {r : Except Stop Flow × Store W} (h : Leaves host r (.left why value env w)) : env = r.2.env := by
  obtain ⟨r, st⟩ := r
  cases r with
  | ok flow =>
      cases flow with
      | normal | «return» v =>
          cases h
          rfl
      | «break» exit | «continue» exit => exact h.elim
  | error stop =>
      cases stop with
      | trapped => cases h
      | killed =>
          cases h
          rfl
      | raised exc =>
          have hleft : Config.left why value env w = if host.outer exc.raise.code then
            .left .raise exc.value st.env st.world else .left .uncaught zero st.env st.world := h
          split at hleft
          · cases hleft
            rfl
          · cases hleft
            rfl

/-- Whatever has been called in the meantime, a variable that the tree does not name is as it was when
    the frame is left. -/
theorem generateCode_keeps (hvalid : stmts.Valid []) (hplain : stmts.Plain)
    (hcode : generateCode stmts version names = some prog) (hfit : stmts.operandsFit initGstate = true)
    (hsmall : prog.mainVector.vector.length < 2 ^ 31) (hhost : host.Sane sane) (hst : st.Sane sane)
    (hslot : slot ∉ stmts.assigned)
    (hsteps : steps (Config.step host prog.mainVector prog.literals) n (.run (st.machine 0 [] temp)) =
      some (.left why value env w)) : env[slot]? = st.env[slot]? := by
  obtain ⟨hcells, hliterals, pc, hstands, hdone⟩ := generateCode_stands hvalid hplain hcode hfit
  let S : Setting W := ⟨host, prog.mainVector, prog.literals, sane, hhost, hliterals, hsmall, hcells⟩
  obtain ⟨fuel, r, hr, hleaves⟩ := (halts_iff_exec (S := S) hvalid hplain hstands hdone hst).mp ⟨⟨n, hsteps⟩, rfl⟩
  rw [leaves_env hleaves]
  exact (hvalid.keeps hslot st r hr).1

end

/-- The variables of the program above, and one that it does not name. -/
def widerStore : Store Unit := ⟨[.none, .none, .none, .none, .int 7], ()⟩

theorem widerStore_sane : widerStore.Sane fun _ => True where
  env v hv := by
    simp only [widerStore, List.mem_cons, List.not_mem_nil, or_false] at hv
    rcases hv with rfl | rfl | rfl | rfl | rfl <;> rfl
  world := trivial

/-- It returns, and the fifth variable is 7 as before. -/
theorem mixedProgram_keeps : ∃ prog n value env, generateCode mixedProgram 0 [] = some prog ∧
    steps (Config.step emptyHost prog.mainVector prog.literals) n (.run (widerStore.machine 0 [] .none)) =
      some (.left .return value env ()) ∧ env[4]? = some (.int 7) := by
  obtain ⟨prog, hcode⟩ := generateCode_isSome mixedProgram_valid 0 []
  have hsmall := mixedProgram_small prog hcode
  obtain ⟨hcells, hliterals, pc, hstands, hdone⟩ :=
    generateCode_stands mixedProgram_valid mixedProgram_plain hcode mixedProgram_fits
  let S : Setting Unit := ⟨emptyHost, prog.mainVector, prog.literals, _, emptyHost_sane, hliterals, hsmall, hcells⟩
  have hexec : ∃ fuel r, execStmts emptyHost fuel mixedProgram widerStore = some r ∧ Leaves emptyHost r _ :=
    ⟨3, _, rfl, rfl⟩
  obtain ⟨⟨n, hn⟩, -⟩ := (halts_iff_exec (S := S) mixedProgram_valid mixedProgram_plain hstands hdone
    widerStore_sane).mpr hexec
  exact ⟨prog, n, _, _, hcode, hn, generateCode_keeps mixedProgram_valid mixedProgram_plain hcode mixedProgram_fits
    hsmall emptyHost_sane widerStore_sane (by decide) hn⟩

end Waverous
