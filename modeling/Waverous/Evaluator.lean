import Waverous.Ast
import Waverous.Machine

/-! # What a program means

    The expressions and statements of the language, run on the tree: there is no code, no stack and
    no register here, and an exception, a `break` or a `return` is handed from each construct to the
    one around it.  The operators and the host are those of the interpreter.  Each loop has as many
    rounds as there is fuel at most; `none` is for a program that has run out of it. -/

namespace Waverous

open ActivStack (handles)
open Blocks (Fault)

/-! ## Results -/

/-- An exception on its way, with its traceback. -/
structure Exception where
  raise : Raise
  traceback : Var
  deriving DecidableEq

/-- What a handler finds. -/
def Exception.value (exc : Exception) : Var :=
  .list [exc.raise.code, .str exc.raise.msg, exc.raise.value, exc.traceback]

/-- Why there is no result. -/
inductive Stop where
  | raised (exc : Exception)
  | killed
  | trapped
  deriving DecidableEq

/-- The variables, and what is outside. -/
structure Store (W : Type) where
  env : List Var
  world : W

/-- Something that is run; `none` is for no fuel. -/
abbrev Eval (W : Type) := ExceptT Stop (StateT (Store W) Option)

/-- How a statement ends; `exit` is the name of the loop, or -1 for the innermost one. -/
inductive Flow where
  | normal
  | break (exit : Int)
  | continue (exit : Int)
  | return (v : Var)
  deriving DecidableEq

section

variable {W : Type} (host : Host W)

/-- Something to be run, from a function on stores. -/
def Eval.of {α : Type} (f : Store W → Except Stop α × Store W) : Eval W α := fun st => some (f st)

/-- There is no result. -/
def stop {α : Type} (why : Stop) : Eval W α := .of fun st => (.error why, st)

/-- An exception is raised. -/
def raise {α : Type} (r : Raise) : Eval W α := .of fun st =>
  let (list, w) := host.traceback st.world
  (.error (.raised ⟨r, list⟩), { st with world := w })

/-- An error: it is raised, or is the value. -/
def failWith (e : Error) : Eval W Var := if host.debug then raise host (.ofError e) else pure (.err e)

/-- The answer of an operator. -/
def give : Answer → Eval W Var
  | .value v => pure v
  | .error e => failWith host e
  | .trap => stop .trapped

/-- The reply to a call. -/
def giveReply : Reply → Eval W Var
  | .value v => pure v
  | .error e => failWith host e
  | .raise r => if host.debug then raise host r else pure r.code
  | .unwound r => raise host r
  | .killed => stop .killed

/-- The value of a variable. -/
def getVar (id : Nat) : Eval W Var := do
  let st ← get
  match st.env[id]? with
  | some .none => failWith host .eVarnf
  | some v => pure v
  | none => stop .trapped

/-- An assignment to a variable. -/
def setVar (id : Nat) (v : Var) : Eval W Unit := modify fun st => { st with env := st.env.set id v }

/-- The value of a property. -/
def getPropValue (obj name : Var) : Eval W Var := do
  let st ← get
  give host (getPropAnswer host st.world obj name)

/-- An assignment to a property. -/
def setProp (obj name v : Var) : Eval W Var := do
  let st ← get
  let (ans, w) := putPropAnswer host st.world obj name v
  set { st with world := w }
  give host ans

/-- A call of a verb. -/
def callVerb (obj verb args : Var) : Eval W Var := do
  let st ← get
  let (reply, w) := callVerbReply host st.world obj verb args
  set { st with world := w }
  giveReply host reply

/-- A call of a built-in function. -/
def callBuiltIn (func : Nat) (args : Var) : Eval W Var := do
  let st ← get
  let (reply, w) := callBiFuncReply host st.world func args
  set { st with world := w }
  giveReply host reply

/-- An exception that `wanted` takes is handed to `handler`. -/
def handle {α : Type} (body : Eval W α) (handler : Exception → Option (Eval W α)) : Eval W α := fun st => do
  let (r, st) ← body st
  match r with
  | .error (.raised exc) =>
      match handler exc with
      | some next => next st
      | none => some (r, st)
  | _ => some (r, st)

/-! ## Targets of assignments -/

/-- Where a value is put, with all that has been evaluated of the target: an element or a range is
    replaced in a value that has been read before, and the result is put in its place. -/
inductive Ref where
  | var (slot : Nat)
  | prop (obj name : Var)
  | index (base : Ref) (value i : Var)
  | range (base : Ref) (value i j : Var)

/-- What is there now. -/
def Ref.read : Ref → Eval W Var
  | .var slot => getVar host slot
  | .prop obj name => getPropValue host obj name
  | .index _ value i => give host (pushRefAnswer value i)
  -- a range is only assigned to, as the last part of a target
  | .range _ _ _ _ => stop .trapped

/-- A value is put there. -/
def Ref.assign : Ref → Var → Eval W Var
  | .var slot, v => do
      setVar slot v
      pure v
  | .prop obj name, v => setProp host obj name v
  | .index base value i, v => do
      let new ← give host (indexsetAnswer value i v)
      base.assign new
  | .range base value i j, v => do
      let new ← give host (rangesetAnswer value i j v)
      base.assign new

/-- The value of an assignment is what is assigned, unless an error has taken its place. -/
def Ref.result : Ref → Var → Var → Var
  | .index _ _ _, v, _ | .range _ _ _ _, v, _ => v
  | _, _, stored => stored

/-! ## Scattering assignments -/

/-- The targets are given their values, from left to right: an optional one has a value as long as
    `avail` is not 0, and `rest` is for the target that takes the rest. -/
def assignTargets (rest : List Var) : Scatter → Nat → List Var → List Var → List Var
  | .nil, _, _, env => env
  | .cons .rest id _ next, avail, values, env =>
      assignTargets rest next avail (values.drop rest.length) (env.set id (.list rest))
  | .cons .optional _ _ next, 0, values, env => assignTargets rest next 0 values env
  | .cons .optional id _ next, avail + 1, values, env =>
      assignTargets rest next avail values.tail (env.set id (values.headD .none))
  | .cons .required id _ next, avail, values, env =>
      assignTargets rest next avail values.tail (env.set id (values.headD .none))

/-- There is a target for the rest. -/
def Scatter.hasRest : Scatter → Bool
  | .nil => false
  | .cons kind _ _ next => kind = .rest || next.hasRest

/-- The values for the rest: those that are left when all other targets have one. -/
def scatterRest (sc : Scatter) (values : List Var) : Except Fault (List Var) :=
  let place : Int := ((sc.rest 0 none).getD 0 : Nat)
  if sc.hasRest ∧ sc.nargs ≤ values.length then
    Ranges.sublist values place (place + (values.length - sc.nargs))
  else .ok []

/-- How many optional targets have a value, and the targets without those that need a default. -/
def scatterVars (sc : Scatter) (v : Var) (env : List Var) : Except Error (Except Fault (Nat × List Var)) :=
  match scatterError sc.nargs sc.nreq sc.hasRest v, v with
  | none, .list l => .ok do
      let rest ← scatterRest sc l
      .ok (l.length - sc.nreq, assignTargets rest sc (l.length - sc.nreq) l env)
  | some e, _ => .error e
  | none, _ => .error .eType

/-- A scattering assignment; `defaults` runs what is needed when so many optional targets have a
    value. -/
def assignScatter (sc : Scatter) (v : Var) (defaults : Nat → Eval W Unit) : Eval W Var := do
  let st ← get
  match scatterVars sc v st.env with
  | .error e => failWith host e
  | .ok (.error _) => stop .trapped
  | .ok (.ok (avail, env)) => do
      set { st with env := env }
      defaults avail
      pure v

/-! ## Expressions -/

/-- What an operator gives. -/
def BinaryKind.answer : BinaryKind → Var → Var → Answer
  | .plus => addAnswer host.floats
  | .minus => arithAnswer host.floats .minus
  | .times => arithAnswer host.floats .mult
  | .divide => arithAnswer host.floats .div
  | .mod => arithAnswer host.floats .mod
  | .exp => expAnswer host.floats
  | .eq => eqAnswer
  | .ne => neAnswer
  | .lt => ltAnswer host.signed
  | .le => leAnswer host.signed
  | .gt => gtAnswer host.signed
  | .ge => geAnswer host.signed
  | .in => inAnswer

/-- An argument is added to the list of those before it. -/
def argAnswer : ArgKind → Option Var → Var → Answer
  | .normal, none => singletonAnswer
  | .normal, some list => addTailAnswer list
  | .splice, none => spliceAnswer
  | .splice, some list => appendAnswer list

mutual

/-- The value of an expression; `dollar` is what `$` is the length of. -/
def evalExpr : Expr → Option Var → Eval W Var
  | .var v, _ => pure v
  | .id id, _ => getVar host id
  | .and lhs rhs, dollar => do
      let v ← evalExpr lhs dollar
      if isTrue v then evalExpr rhs dollar else pure v
  | .or lhs rhs, dollar => do
      let v ← evalExpr lhs dollar
      if isTrue v then pure v else evalExpr rhs dollar
  | .negate expr, dollar => do
      let v ← evalExpr expr dollar
      give host (unaryMinusAnswer v)
  | .not expr, dollar => do
      let v ← evalExpr expr dollar
      give host (notAnswer v)
  | .binary kind lhs rhs, dollar => do
      let v ← evalExpr lhs dollar
      let w ← evalExpr rhs dollar
      give host (kind.answer host v w)
  | .prop lhs rhs, dollar => do
      let obj ← evalExpr lhs dollar
      let name ← evalExpr rhs dollar
      getPropValue host obj name
  | .index lhs rhs, dollar => do
      let base ← evalExpr lhs dollar
      let index ← evalExpr rhs (some base)
      give host (refAnswer base index)
  | .range base «from» «to», dollar => do
      let base ← evalExpr base dollar
      let i ← evalExpr «from» (some base)
      let j ← evalExpr «to» (some base)
      give host (rangeRefAnswer base i j)
  | .length, dollar =>
      match dollar with
      | some base => give host (lengthAnswer base)
      | none => stop .trapped
  | .list list, dollar => evalArgs list none dollar
  | .call func args, dollar => do
      let args ← evalArgs args none dollar
      callBuiltIn host func args
  | .verb obj verb args, dollar => do
      let obj ← evalExpr obj dollar
      let verb ← evalExpr verb dollar
      let args ← evalArgs args none dollar
      callVerb host obj verb args
  | .cond condition consequent alternate, dollar => do
      let v ← evalExpr condition dollar
      if isTrue v then evalExpr consequent dollar else evalExpr alternate dollar
  | .asgn (.scatter sc) rhs, dollar => do
      let v ← evalExpr rhs dollar
      assignScatter host sc v fun avail => evalDefaults sc avail dollar
  | .asgn lhs rhs, dollar => do
      let ref ← evalTarget lhs dollar
      let v ← evalExpr rhs dollar
      let stored ← ref.assign host v
      pure (ref.result v stored)
  | .catch «try» codes except, dollar => do
      let codes ← evalCodes codes dollar
      handle (evalExpr «try» dollar) fun exc =>
        if handles exc.raise.code codes then some (evalExcept except exc dollar) else none
  | .scatter _, _ => stop .trapped

/-- The value after an error that has been caught: the default, or the code of the error. -/
def evalExcept : Option Expr → Exception → Option Var → Eval W Var
  | some except, _, dollar => evalExpr except dollar
  | none, exc, _ => pure exc.raise.code

/-- The parts of a target, from left to right. -/
def evalTarget : Expr → Option Var → Eval W Ref
  | .id id, _ => pure (.var id)
  | .prop lhs rhs, dollar => do
      let obj ← evalExpr lhs dollar
      let name ← evalExpr rhs dollar
      pure (.prop obj name)
  | .index lhs rhs, dollar => do
      let base ← evalTarget lhs dollar
      let value ← base.read host
      let index ← evalExpr rhs (some value)
      pure (.index base value index)
  | .range base «from» «to», dollar => do
      let base ← evalTarget base dollar
      let value ← base.read host
      let i ← evalExpr «from» (some value)
      let j ← evalExpr «to» (some value)
      pure (.range base value i j)
  | _, _ => stop .trapped

/-- The list of the arguments, which is begun by the first one. -/
def evalArgs : ArgList → Option Var → Option Var → Eval W Var
  | .nil, list, _ => pure (list.getD (.list []))
  | .cons kind expr next, list, dollar => do
      let v ← evalExpr expr dollar
      let list ← give host (argAnswer kind list v)
      evalArgs next (some list) dollar

/-- The codes of a handler; any value that is no list stands for `ANY`. -/
def evalCodes : ArgList → Option Var → Eval W Var
  | .nil, _ => pure zero
  | .cons kind expr next, dollar => do
      let v ← evalExpr expr dollar
      let list ← give host (argAnswer kind none v)
      evalArgs next (some list) dollar

/-- The defaults of the optional targets that have no value. -/
def evalDefaults : Scatter → Nat → Option Var → Eval W Unit
  | .nil, _, _ => pure ()
  | .cons .optional id (some expr) next, 0, dollar => do
      let v ← evalExpr expr dollar
      setVar id v
      evalDefaults next 0 dollar
  | .cons .optional _ _ next, avail, dollar => evalDefaults next (avail - 1) dollar
  | .cons _ _ _ next, avail, dollar => evalDefaults next avail dollar

end

theorem evalExpr_var (v : Var) (dollar : Option Var) : evalExpr host (.var v) dollar = pure v := by
  rw [evalExpr]

theorem evalExcept_none (exc : Exception) (dollar : Option Var) :
    evalExcept host none exc dollar = pure exc.raise.code := by
  rw [evalExcept]

theorem evalTarget_id (id : Nat) (dollar : Option Var) : evalTarget host (.id id) dollar = pure (.var id) := by
  rw [evalTarget]

theorem evalArgs_nil (list dollar : Option Var) :
    evalArgs host .nil list dollar = pure (list.getD (.list [])) := by
  rw [evalArgs]

theorem evalCodes_nil (dollar : Option Var) : evalCodes host .nil dollar = pure zero := by
  rw [evalCodes]

theorem evalDefaults_nil (avail : Nat) (dollar : Option Var) : evalDefaults host .nil avail dollar = pure () := by
  rw [evalDefaults]

/-! ## Loops -/

/-- What comes after a round. -/
inductive Round (α : Type) where
  | again (a : α)
  | done (flow : Flow)

/-- What comes after a round is done. -/
def Round.next {α : Type} (again : α → Eval W Flow) : Round α → Eval W Flow
  | .again a => again a
  | .done flow => pure flow

/-- So many rounds at most. -/
def runRounds {α : Type} (round : α → Eval W (Round α)) : Nat → α → Eval W Flow
  | 0, _ => fun _ => none
  | fuel + 1, a => do
      let r ← round a
      r.next (runRounds round fuel)

/-- `exit` names the loop `id`. -/
def leaves (exit id : Int) : Bool := exit = -1 || exit = id

/-- The body of the loop `id` has ended; the next round is that of `a`. -/
def afterBody {α : Type} (id : Int) (a : α) : Flow → Round α
  | .normal => .again a
  | .continue exit => if leaves exit id then .again a else .done (.continue exit)
  | .break exit => .done (if leaves exit id then .normal else .break exit)
  | .return v => .done (.return v)

/-- What follows a statement that has ended normally. -/
def Flow.andThen (next : Eval W Flow) : Flow → Eval W Flow
  | .normal => next
  | flow => pure flow

/-- An error of a statement: it is raised, or the statement is skipped. -/
def failFlow (e : Error) : Eval W Flow := if host.debug then raise host (.ofError e) else pure .normal

/-- A round of `for` over a list, from the element `count` on. -/
def listRound (id : Nat) (list : Var) (body : Eval W Flow) (count : Int32) : Eval W (Round Int32) :=
  match list with
  | .list l =>
      if count.toInt > l.length then pure (.done .normal)
      else if 0 < count.toInt then
        match l[count.toInt.toNat - 1]? with
        | some v => do
            setVar id v
            let flow ← body
            pure (afterBody id (count + 1) flow)
        | none => stop .trapped
      -- the count has gone round: the element is outside of the list
      else stop .trapped
  | _ => do
      let flow ← failFlow host .eType
      pure (.done flow)

/-- A round of `for` over a range, from `from` on. -/
def rangeRound (id : Nat) («to» : Var) (body : Eval W Flow) («from» : Var) : Eval W (Round Var) :=
  match rangeNext «from» «to» with
  | none => do
      let flow ← failFlow host .eType
      pure (.done flow)
  | some (true, _) => pure (.done .normal)
  | some (false, next) => do
      setVar id «from»
      let flow ← body
      pure (afterBody id next flow)

/-- A round of `while`. -/
def whileRound (id : Int) (condition : Eval W Var) (body : Eval W Flow) (_ : Unit) : Eval W (Round Unit) := do
  let v ← condition
  if id = -1 then pure () else setVar id.toNat v
  if isTrue v then do
    let flow ← body
    pure (afterBody id () flow)
  else pure (.done .normal)

/-! ## Statements -/

/-- The first of the handlers that takes an exception. -/
def firstHandler {α : Type} (code : Var) : List (Var × α) → Option α
  | [] => none
  | (codes, a) :: rest => if handles code codes then some a else firstHandler code rest

/-- After `body`, however it ends, `handler` is run; if that ends normally, then it goes on as `body`
    has ended. -/
def finally' (body handler : Eval W Flow) : Eval W Flow := fun st => do
  let (r, st) ← body st
  match r with
  -- a task that is killed runs no handler
  | .error .killed | .error .trapped => some (r, st)
  | r => do
      let (r', st) ← handler st
      some (if r' = .ok .normal then r else r', st)

variable (fuel : Nat)

mutual

/-- A statement. -/
def execStmt : Stmt → Eval W Flow
  | .cond arms otherwise => execArms arms (execStmts otherwise)
  | .list id expr body => do
      let list ← evalExpr host expr none
      runRounds (listRound host id list (execStmts body)) fuel 1
  | .range id «from» «to» body => do
      let i ← evalExpr host «from» none
      let j ← evalExpr host «to» none
      runRounds (rangeRound host id j (execStmts body)) fuel i
  | .while id condition body =>
      runRounds (whileRound id (evalExpr host condition none) (execStmts body)) fuel ()
  | .fork _ _ _ => stop .trapped
  | .expr expr => do
      let _ ← evalExpr host expr none
      pure .normal
  | .return (some expr) => do
      let v ← evalExpr host expr none
      pure (.return v)
  | .return none => pure (.return zero)
  | .tryExcept body excepts => do
      let handlers ← execCodes excepts
      handle (execStmts body) fun exc =>
        (firstHandler exc.raise.code handlers).map fun handler => handler exc
  | .tryFinally body handler => finally' (execStmts body) (execStmts handler)
  | .break exit => pure (.break exit)
  | .continue exit => pure (.continue exit)

/-- Statements, one after the other. -/
def execStmts : StmtList → Eval W Flow
  | .nil => pure .normal
  | .cons stmt next => do
      let flow ← execStmt stmt
      flow.andThen (execStmts next)

/-- The first arm whose condition is true, or what is done otherwise. -/
def execArms : CondArm → Eval W Flow → Eval W Flow
  | .nil, otherwise => otherwise
  | .cons condition stmt next, otherwise => do
      let v ← evalExpr host condition none
      if isTrue v then execStmts stmt else execArms next otherwise

/-- The codes of the handlers, with what each of them does. -/
def execCodes : ExceptArm → Eval W (List (Var × (Exception → Eval W Flow)))
  | .nil => pure []
  | .cons id codes stmt next => do
      let v ← evalCodes host codes none
      let rest ← execCodes next
      pure ((v, fun exc => do
        if 0 ≤ id then setVar id.toNat exc.value else pure ()
        execStmts stmt) :: rest)

end

theorem execStmt_break (exit : Int) : execStmt host fuel (.break exit) = pure (.break exit) := by
  rw [execStmt]

theorem execStmts_nil : execStmts host fuel .nil = pure .normal := by
  rw [execStmts]

theorem execArms_nil (otherwise : Eval W Flow) : execArms host fuel .nil otherwise = otherwise := by
  rw [execArms]

theorem execCodes_nil : execCodes host fuel .nil = pure [] := by
  rw [execCodes]

end

end Waverous
