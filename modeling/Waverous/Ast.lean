import Waverous.Program

/-! # Abstract syntax trees — `ast.h`

    What the parser makes of a program and the code generator reads.  The chains through `next`
    are types of their own, with `nil` for the null pointer.  The labels that the code generator
    keeps in scatters and handlers are not part of the trees here. -/

namespace Waverous

/-- `enum Arg_Kind`. -/
inductive ArgKind where
  | normal | splice
  deriving DecidableEq, Repr

/-- `enum Scatter_Kind`. -/
inductive ScatterKind where
  | required | optional | rest
  deriving DecidableEq, Repr

/-- The members of `enum Expr_Kind` for operators that evaluate both their operands. -/
inductive BinaryKind where
  | plus | minus | times | divide | mod | exp
  | eq | ne | lt | le | gt | ge | «in»
  deriving DecidableEq, Repr

mutual

/-- `Expr`. -/
inductive Expr where
  | var (var : Var)
  | id (id : Nat)
  | prop (lhs rhs : Expr)
  | verb (obj verb : Expr) (args : ArgList)
  | index (lhs rhs : Expr)
  | range (base «from» «to» : Expr)
  | asgn (lhs rhs : Expr)
  | call (func : Nat) (args : ArgList)
  | binary (kind : BinaryKind) (lhs rhs : Expr)
  | negate (expr : Expr)
  | and (lhs rhs : Expr)
  | or (lhs rhs : Expr)
  | not (expr : Expr)
  | list (list : ArgList)
  | cond (condition consequent alternate : Expr)
  | catch («try» : Expr) (codes : ArgList) (except : Option Expr)
  | length
  | scatter (scatter : Scatter)

/-- `Arg_List`; as the codes of a handler, `nil` is `ANY`. -/
inductive ArgList where
  | nil
  | cons (kind : ArgKind) (expr : Expr) (next : ArgList)

/-- `Scatter`. -/
inductive Scatter where
  | nil
  | cons (kind : ScatterKind) (id : Nat) (expr : Option Expr) (next : Scatter)

end

mutual

/-- `Stmt`, without its `next`; an `id` or `exit` of -1 is none. -/
inductive Stmt where
  | cond (arms : CondArm) (otherwise : StmtList)
  | list (id : Nat) (expr : Expr) (body : StmtList)
  | range (id : Nat) («from» «to» : Expr) (body : StmtList)
  | «while» (id : Int) (condition : Expr) (body : StmtList)
  | fork (id : Int) (time : Expr) (body : StmtList)
  | expr (expr : Expr)
  | «return» (expr : Option Expr)
  | tryExcept (body : StmtList) (excepts : ExceptArm)
  | tryFinally (body handler : StmtList)
  | «break» (exit : Int)
  | «continue» (exit : Int)

/-- `Stmt`, with its `next`. -/
inductive StmtList where
  | nil
  | cons (stmt : Stmt) (next : StmtList)

/-- `Cond_Arm`. -/
inductive CondArm where
  | nil
  | cons (condition : Expr) (stmt : StmtList) (next : CondArm)

/-- `Except_Arm`. -/
inductive ExceptArm where
  | nil
  | cons (id : Int) (codes : ArgList) (stmt : StmtList) (next : ExceptArm)

end

/-! ## `while (tmp->next) tmp = tmp->next; tmp->next = ..` -/

def ArgList.append : ArgList → ArgList → ArgList
  | .nil, last => last
  | .cons kind expr next, last => .cons kind expr (next.append last)

def Scatter.append : Scatter → Scatter → Scatter
  | .nil, last => last
  | .cons kind id expr next, last => .cons kind id expr (next.append last)

def StmtList.append : StmtList → StmtList → StmtList
  | .nil, last => last
  | .cons stmt next, last => .cons stmt (next.append last)

def CondArm.append : CondArm → CondArm → CondArm
  | .nil, last => last
  | .cons condition stmt next, last => .cons condition stmt (next.append last)

def ExceptArm.append : ExceptArm → ExceptArm → ExceptArm
  | .nil, last => last
  | .cons id codes stmt next, last => .cons id codes stmt (next.append last)

end Waverous
