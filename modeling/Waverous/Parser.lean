import Waverous.Grammar
import Waverous.BiFuncData

/-! # The parser — `parser.y`, `sym_table.c`

    The actions of the productions run over a tree from left to right, those in the middle of a
    production included.  The first call of `error` ends the run, since nothing is made of a
    program with errors.  The lexer is not modelled, and so neither are the line numbers in
    messages and the renaming of keywords. -/

namespace Waverous

/-! ## Names of variables -/

/-- `new_builtin_names`, in the order of the slots. -/
def newBuiltinNames (version : Nat) : List Str :=
  (["NUM", "OBJ", "STR", "LIST", "ERR", "player", "this", "caller", "verb", "args", "argstr",
    "dobj", "dobjstr", "prepstr", "iobj", "iobjstr"] ++
    if 3 ≤ version then ["INT", "FLOAT"] else []).map Str.ofString

/-- `find_or_add_name`. -/
def findOrAddName (names : List Str) (str : Str) : List Str × Nat :=
  match names.findIdx? fun name => strcaseEq name str with
  | some i => (names, i)
  | none => (names ++ [str], names.length)

/-! ## What the actions keep -/

/-- `struct loop_entry`. -/
structure LoopEntry where
  name : Option Str
  isBarrier : Bool
  deriving DecidableEq

/-- `local_names`, `dollars_ok` and `loop_stack`. -/
structure ParserGlobals where
  localNames : List Str
  dollarsOk : Int
  loopStack : List LoopEntry
  deriving DecidableEq

/-- An action; the exception is the text of an error. -/
abbrev Action := StateT ParserGlobals (Except Str)

/-- `error`. -/
def error {α : Type} (s : String) (t : Str) : Action α := throw (Str.ofString s ++ t)

/-- `yyerror`. -/
def yyerror {α : Type} (s : String) : Action α := error s []

/-- `find_id`. -/
def findId (name : Str) : Action Nat := fun st =>
  let (names, slot) := findOrAddName st.localNames name
  .ok (slot, { st with localNames := names })

/-- `dollars_ok++`, the action of `dollars_up`. -/
def dollarsUp : Action Unit := modify fun st => { st with dollarsOk := st.dollarsOk + 1 }

/-- `dollars_ok--`. -/
def dollarsDown : Action Unit := modify fun st => { st with dollarsOk := st.dollarsOk - 1 }

/-! ### Scopes of loop names -/

/-- `enum loop_exit_kind`. -/
inductive LoopExitKind where
  | «break» | «continue»
  deriving DecidableEq

/-- `push_loop_name`. -/
def pushLoopName (name : Option Str) : Action Unit :=
  modify fun st => { st with loopStack := ⟨name, false⟩ :: st.loopStack }

/-- `pop_loop_name`; what it should not find is only logged. -/
def popLoopName : Action Unit :=
  modify fun st =>
    match st.loopStack with
    | ⟨_, false⟩ :: next => { st with loopStack := next }
    | _ => st

/-- `suspend_loop_scope`. -/
def suspendLoopScope : Action Unit :=
  modify fun st => { st with loopStack := ⟨none, true⟩ :: st.loopStack }

/-- `resume_loop_scope`. -/
def resumeLoopScope : Action Unit :=
  modify fun st =>
    match st.loopStack with
    | ⟨_, true⟩ :: next => { st with loopStack := next }
    | _ => st

/-- The entries up to the first barrier. -/
def loopScope (loopStack : List LoopEntry) : List LoopEntry :=
  loopStack.takeWhile fun entry => !entry.isBarrier

/-- `check_loop_name`. -/
def checkLoopName (name : Option Str) (kind : LoopExitKind) : Action Unit := do
  let st ← get
  match name with
  | none =>
      if (loopScope st.loopStack).isEmpty then
        yyerror (match kind with
          | .break => "No enclosing loop for `break' statement"
          | .continue => "No enclosing loop for `continue' statement")
      else pure ()
  | some name =>
      if (loopScope st.loopStack).any fun entry => entry.name.any fun n => strcaseEq n name then
        pure ()
      else
        error (match kind with
          | .break => "Invalid loop name in `break' statement: "
          | .continue => "Invalid loop name in `continue' statement: ") name

/-! ### Scattering assignments -/

/-- `scatter_from_arglist`. -/
def scatterFromArglist : ArgList → Action Scatter
  | .nil => pure .nil
  | .cons kind (.id id) next => do
      let sc ← scatterFromArglist next
      pure (.cons (if kind = .normal then .required else .rest) id none sc)
  | .cons _ _ _ => yyerror "Scattering assignment targets must be simple variables."

/-- `vet_scatter`, from the values of `seen_rest` and `count` on. -/
def vetScatter : Scatter → Bool → Nat → Action Unit
  | .nil, _, count =>
      if 255 < count then yyerror "Too many targets in scattering assignment." else pure ()
  | .cons .rest _ _ sc, seenRest, count =>
      if seenRest then yyerror "More than one `@' target in scattering assignment."
      else vetScatter sc true (count + 1)
  | .cons _ _ _ sc, seenRest, count => vetScatter sc seenRest (count + 1)

/-! ### Expressions with more than one form -/

/-- `if (e->kind == EXPR_RANGE) e = e->e.range.base;`. -/
def rangeBase : Expr → Expr
  | .range base _ _ => base
  | e => e

/-- `while (e->kind == EXPR_INDEX) e = e->e.bin.lhs;`. -/
def indexBase : Expr → Expr
  | .index lhs _ => indexBase lhs
  | e => e

/-- `expr: expr '=' expr`. -/
def assignment (lhs rhs : Expr) : Action Expr :=
  match lhs with
  | .list .nil => yyerror "Empty list in scattering assignment."
  | .list list => do
      let sc ← scatterFromArglist list
      vetScatter sc false 0
      pure (.asgn (.scatter sc) rhs)
  | e =>
      match indexBase (rangeBase e) with
      | .id _ | .prop _ _ => pure (.asgn e rhs)
      | _ => yyerror "Illegal expression on left side of assignment."

/-- `expr: '-' expr`. -/
def negation : Expr → Expr
  | .var (.int num) => .var (.int (-num))
  | .var (.float bits) => .var (.float (bits ^^^ 0x8000000000000000))
  | e => .negate e

section

variable (t : BfTable) (warns : Bool)

/-- `number_func_by_name`, with `FUNC_NOT_FOUND` for a name that is none. -/
def funcNumber (name : Str) : Nat := (t.numberFuncByName name).getD 256

/-- `warning`; `warns` if the client has a function for it. -/
def warning (s : String) (t : Str) : Action Unit := if warns then pure () else error s t

/-- `expr: tID '(' arglist ')'`. -/
def functionCall (name : Str) (args : ArgList) : Action Expr :=
  match t.numberFuncByName name with
  | none => do
      warning warns "Unknown built-in function: " name
      pure (.call (funcNumber t (Str.ofString "call_function")) (.cons .normal (.var (.str name)) args))
  | some fNo => pure (.call fNo args)

/-! ### The actions of expressions -/

mutual

/-- `expr`. -/
def ExprTree.reduce : ExprTree → Action Expr
  | .integer n => pure (.var (.int n))
  | .float bits => pure (.var (.float bits))
  | .string s => pure (.var (.str s))
  | .object oid => pure (.var (.obj oid))
  | .error e => pure (.var (.err e))
  | .id name => do
      let id ← findId name
      pure (.id id)
  | .dollarId name => pure (.prop (.var (.obj 0)) (.var (.str name)))
  | .prop obj name => do
      let obj ← obj.reduce
      pure (.prop obj (.var (.str name)))
  | .propExpr obj name => do
      let obj ← obj.reduce
      let name ← name.reduce
      pure (.prop obj name)
  | .verb obj name args => do
      let obj ← obj.reduce
      let args ← args.reduce
      pure (.verb obj (.var (.str name)) args)
  | .dollarVerb name args => do
      let args ← args.reduce
      pure (.verb (.var (.obj 0)) (.var (.str name)) args)
  | .verbExpr obj name args => do
      let obj ← obj.reduce
      let name ← name.reduce
      let args ← args.reduce
      pure (.verb obj name args)
  | .index base sub => do
      let base ← base.reduce
      dollarsUp
      let sub ← sub.reduce
      dollarsDown
      pure (.index base sub)
  | .range base «from» «to» => do
      let base ← base.reduce
      dollarsUp
      let «from» ← «from».reduce
      let «to» ← «to».reduce
      dollarsDown
      pure (.range base «from» «to»)
  | .dollar => do
      let st ← get
      if st.dollarsOk = 0 then yyerror "Illegal context for `$' expression."
      else pure .length
  | .assign lhs rhs => do
      let lhs ← lhs.reduce
      let rhs ← rhs.reduce
      assignment lhs rhs
  | .scatterAssign scatter rhs => do
      let sc ← scatter.reduce
      let rhs ← rhs.reduce
      vetScatter sc false 0
      pure (.asgn (.scatter sc) rhs)
  | .call name args => do
      let args ← args.reduce
      functionCall t warns name args
  | .binary kind lhs rhs => do
      let lhs ← lhs.reduce
      let rhs ← rhs.reduce
      pure (.binary kind lhs rhs)
  | .and lhs rhs => do
      let lhs ← lhs.reduce
      let rhs ← rhs.reduce
      pure (.and lhs rhs)
  | .or lhs rhs => do
      let lhs ← lhs.reduce
      let rhs ← rhs.reduce
      pure (.or lhs rhs)
  | .negate expr => do
      let expr ← expr.reduce
      pure (negation expr)
  | .not expr => do
      let expr ← expr.reduce
      pure (.not expr)
  | .paren expr => expr.reduce
  | .list args => do
      let args ← args.reduce
      pure (.list args)
  | .cond condition consequent alternate => do
      let condition ← condition.reduce
      let consequent ← consequent.reduce
      let alternate ← alternate.reduce
      pure (.cond condition consequent alternate)
  | .catch expr codes default => do
      let expr ← expr.reduce
      let codes ← codes.reduce
      let default ← default.reduce
      pure (.catch expr codes default)

/-- `codes`. -/
def CodesTree.reduce : CodesTree → Action ArgList
  | .any => pure .nil
  | .args args => args.reduce

/-- `default`. -/
def DefaultTree.reduce : DefaultTree → Action (Option Expr)
  | .nothing => pure none
  | .arrow expr => do
      let expr ← expr.reduce
      pure (some expr)

/-- `arglist`. -/
def ArglistTree.reduce : ArglistTree → Action ArgList
  | .nothing => pure .nil
  | .args args => args.reduce

/-- `ne_arglist`. -/
def NeArglistTree.reduce : NeArglistTree → Action ArgList
  | .expr expr => do
      let expr ← expr.reduce
      pure (.cons .normal expr .nil)
  | .splice expr => do
      let expr ← expr.reduce
      pure (.cons .splice expr .nil)
  | .snoc args expr => do
      let args ← args.reduce
      let expr ← expr.reduce
      pure (args.append (.cons .normal expr .nil))
  | .snocSplice args expr => do
      let args ← args.reduce
      let expr ← expr.reduce
      pure (args.append (.cons .splice expr .nil))

/-- `scatter`. -/
def ScatterTree.reduce : ScatterTree → Action Scatter
  | .args args item => do
      let args ← args.reduce
      let item ← item.reduce
      let sc ← scatterFromArglist args
      pure (sc.append item)
  | .item scatter item => do
      let sc ← scatter.reduce
      let item ← item.reduce
      pure (sc.append item)
  | .id scatter name => do
      let sc ← scatter.reduce
      let id ← findId name
      pure (sc.append (.cons .required id none .nil))
  | .splice scatter name => do
      let sc ← scatter.reduce
      let id ← findId name
      pure (sc.append (.cons .rest id none .nil))
  | .single item => item.reduce

/-- `scatter_item`. -/
def ScatterItemTree.reduce : ScatterItemTree → Action Scatter
  | .optional name => do
      let id ← findId name
      pure (.cons .optional id none .nil)
  | .default name expr => do
      let expr ← expr.reduce
      let id ← findId name
      pure (.cons .optional id (some expr) .nil)

end

/-! ### The actions of statements -/

/-- The action in the middle of `excepts`, at the handler that is the `count`th. -/
def checkExcepts : ExceptArm → Nat → Action Unit
  | .nil, _ => pure ()
  | .cons _ codes _ .nil, count =>
      match codes with
      | .nil => yyerror "Unreachable EXCEPT clause"
      | _ => if 255 < count then yyerror "Too many EXCEPT clauses (max. 255)" else pure ()
  | .cons _ _ _ next, count => checkExcepts next (count + 1)

/-- A statement by itself. -/
def Stmt.single (stmt : Stmt) : StmtList := .cons stmt .nil

mutual

/-- `statement`. -/
def StatementTree.reduce : StatementTree → Action StmtList
  | .if condition body elseifs elsepart => do
      let condition ← condition.reduce t warns
      let body ← body.reduce
      let elseifs ← elseifs.reduce
      let elsepart ← elsepart.reduce
      pure (Stmt.cond (.cons condition body elseifs) elsepart).single
  | .forList name expr body => do
      let expr ← expr.reduce t warns
      pushLoopName (some name)
      let body ← body.reduce
      let id ← findId name
      popLoopName
      pure (Stmt.list id expr body).single
  | .forRange name «from» «to» body => do
      let «from» ← «from».reduce t warns
      let «to» ← «to».reduce t warns
      pushLoopName (some name)
      let body ← body.reduce
      let id ← findId name
      popLoopName
      pure (Stmt.range id «from» «to» body).single
  | .while condition body => do
      let condition ← condition.reduce t warns
      pushLoopName none
      let body ← body.reduce
      popLoopName
      pure (Stmt.while (-1) condition body).single
  | .whileId name condition body => do
      let condition ← condition.reduce t warns
      pushLoopName (some name)
      let body ← body.reduce
      let id ← findId name
      popLoopName
      pure (Stmt.while id condition body).single
  | .fork time body => do
      let time ← time.reduce t warns
      suspendLoopScope
      let body ← body.reduce
      resumeLoopScope
      pure (Stmt.fork (-1) time body).single
  | .forkId name time body => do
      let time ← time.reduce t warns
      suspendLoopScope
      let body ← body.reduce
      let id ← findId name
      resumeLoopScope
      pure (Stmt.fork id time body).single
  | .expr expr => do
      let expr ← expr.reduce t warns
      pure (Stmt.expr expr).single
  | .break => do
      checkLoopName none .break
      pure (Stmt.break (-1)).single
  | .breakId name => do
      checkLoopName (some name) .break
      let id ← findId name
      pure (Stmt.break id).single
  | .continue => do
      checkLoopName none .continue
      pure (Stmt.continue (-1)).single
  | .continueId name => do
      checkLoopName (some name) .continue
      let id ← findId name
      pure (Stmt.continue id).single
  | .return expr => do
      let expr ← expr.reduce t warns
      pure (Stmt.return (some expr)).single
  | .return0 => pure (Stmt.return none).single
  | .empty => pure .nil
  | .tryExcept body excepts => do
      let body ← body.reduce
      let excepts ← excepts.reduce
      pure (Stmt.tryExcept body excepts).single
  | .tryFinally body handler => do
      let body ← body.reduce
      let handler ← handler.reduce
      pure (Stmt.tryFinally body handler).single

/-- `statements`. -/
def StatementsTree.reduce : StatementsTree → Action StmtList
  | .nothing => pure .nil
  | .snoc statements statement => do
      let statements ← statements.reduce
      let statement ← statement.reduce
      pure (statements.append statement)

/-- `elseifs`. -/
def ElseifsTree.reduce : ElseifsTree → Action CondArm
  | .nothing => pure .nil
  | .snoc elseifs condition body => do
      let elseifs ← elseifs.reduce
      let condition ← condition.reduce t warns
      let body ← body.reduce
      pure (elseifs.append (.cons condition body .nil))

/-- `elsepart`. -/
def ElsepartTree.reduce : ElsepartTree → Action StmtList
  | .nothing => pure .nil
  | .else body => body.reduce

/-- `excepts`. -/
def ExceptsTree.reduce : ExceptsTree → Action ExceptArm
  | .single except => except.reduce
  | .snoc excepts except => do
      let excepts ← excepts.reduce
      checkExcepts excepts 1
      let except ← except.reduce
      pure (excepts.append except)

/-- `except`. -/
def ExceptTree.reduce : ExceptTree → Action ExceptArm
  | .except none codes body => do
      let codes ← codes.reduce t warns
      let body ← body.reduce
      pure (.cons (-1) codes body .nil)
  | .except (some name) codes body => do
      let codes ← codes.reduce t warns
      let body ← body.reduce
      let id ← findId name
      pure (.cons id codes body .nil)

end

/-! ## The parser -/

/-- What `parse_program` starts from. -/
def ParserGlobals.start (version : Nat) : ParserGlobals where
  localNames := newBuiltinNames version
  dollarsOk := 0
  loopStack := []

/-- The tokens of a text are accepted without an error, and `prog_start` and `local_names` are what
    has been made of them. -/
def Accepts (version : Nat) (tokens : List Token) (progStart : StmtList) (localNames : List Str) :
    Prop :=
  ∃ tree : StatementsTree, tree.tokens = tokens ∧
    ∃ st, tree.reduce t warns (ParserGlobals.start version) = .ok (progStart, st) ∧
      st.localNames = localNames

end

end Waverous
