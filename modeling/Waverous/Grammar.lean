import Waverous.Ast

/-! # The grammar — `parser.y`

    One type for each nonterminal and one constructor for each production.  A tree is a derivation
    of its tokens; which of the derivations of a text the precedences choose is not kept here. -/

namespace Waverous

/-- What `yylex` returns; `char` is a token of one character. -/
inductive Token where
  | integer (n : Int32) | object (oid : Objid) | float (bits : UInt64) | string (s : Str)
  | id (s : Str) | error (e : Error)
  | «if» | «else» | elseif | endif | «for» | «in» | endfor | «return» | fork | endfork
  | «while» | endwhile | «try» | endtry | except | «finally» | any | «break» | «continue»
  | «to» | arrow | or | and | eq | ne | le | ge
  | char (c : Char)
  deriving DecidableEq

mutual

/-- `expr`. -/
inductive ExprTree where
  | integer (n : Int32)
  | float (bits : UInt64)
  | string (s : Str)
  | object (oid : Objid)
  | error (e : Error)
  | id (name : Str)
  | dollarId (name : Str)
  | prop (obj : ExprTree) (name : Str)
  | propExpr (obj name : ExprTree)
  | verb (obj : ExprTree) (name : Str) (args : ArglistTree)
  | dollarVerb (name : Str) (args : ArglistTree)
  | verbExpr (obj name : ExprTree) (args : ArglistTree)
  | index (base sub : ExprTree)
  | range (base «from» «to» : ExprTree)
  | dollar
  | assign (lhs rhs : ExprTree)
  | scatterAssign (scatter : ScatterTree) (rhs : ExprTree)
  | call (name : Str) (args : ArglistTree)
  | binary (kind : BinaryKind) (lhs rhs : ExprTree)
  | and (lhs rhs : ExprTree)
  | or (lhs rhs : ExprTree)
  | negate (expr : ExprTree)
  | not (expr : ExprTree)
  | paren (expr : ExprTree)
  | list (args : ArglistTree)
  | cond (condition consequent alternate : ExprTree)
  | catch (expr : ExprTree) (codes : CodesTree) (default : DefaultTree)

/-- `codes`. -/
inductive CodesTree where
  | any
  | args (args : NeArglistTree)

/-- `default`. -/
inductive DefaultTree where
  | nothing
  | arrow (expr : ExprTree)

/-- `arglist`. -/
inductive ArglistTree where
  | nothing
  | args (args : NeArglistTree)

/-- `ne_arglist`. -/
inductive NeArglistTree where
  | expr (expr : ExprTree)
  | splice (expr : ExprTree)
  | snoc (args : NeArglistTree) (expr : ExprTree)
  | snocSplice (args : NeArglistTree) (expr : ExprTree)

/-- `scatter`. -/
inductive ScatterTree where
  | args (args : NeArglistTree) (item : ScatterItemTree)
  | item (scatter : ScatterTree) (item : ScatterItemTree)
  | id (scatter : ScatterTree) (name : Str)
  | splice (scatter : ScatterTree) (name : Str)
  | single (item : ScatterItemTree)

/-- `scatter_item`. -/
inductive ScatterItemTree where
  | optional (name : Str)
  | default (name : Str) (expr : ExprTree)

end

mutual

/-- `statement`. -/
inductive StatementTree where
  | «if» (condition : ExprTree) (body : StatementsTree) (elseifs : ElseifsTree)
      (elsepart : ElsepartTree)
  | forList (name : Str) (expr : ExprTree) (body : StatementsTree)
  | forRange (name : Str) («from» «to» : ExprTree) (body : StatementsTree)
  | «while» (condition : ExprTree) (body : StatementsTree)
  | whileId (name : Str) (condition : ExprTree) (body : StatementsTree)
  | fork (time : ExprTree) (body : StatementsTree)
  | forkId (name : Str) (time : ExprTree) (body : StatementsTree)
  | expr (expr : ExprTree)
  | «break»
  | breakId (name : Str)
  | «continue»
  | continueId (name : Str)
  | «return» (expr : ExprTree)
  | return0
  | empty
  | tryExcept (body : StatementsTree) (excepts : ExceptsTree)
  | tryFinally (body handler : StatementsTree)

/-- `statements`. -/
inductive StatementsTree where
  | nothing
  | snoc (statements : StatementsTree) (statement : StatementTree)

/-- `elseifs`. -/
inductive ElseifsTree where
  | nothing
  | snoc (elseifs : ElseifsTree) (condition : ExprTree) (body : StatementsTree)

/-- `elsepart`. -/
inductive ElsepartTree where
  | nothing
  | «else» (body : StatementsTree)

/-- `excepts`. -/
inductive ExceptsTree where
  | single (except : ExceptTree)
  | snoc (excepts : ExceptsTree) (except : ExceptTree)

/-- `except`, with its `opt_id`. -/
inductive ExceptTree where
  | except (id : Option Str) (codes : CodesTree) (body : StatementsTree)

end

/-! ## The tokens of a tree -/

/-- The token of an operator. -/
def BinaryKind.token : BinaryKind → Token
  | .plus => .char '+' | .minus => .char '-' | .times => .char '*' | .divide => .char '/'
  | .mod => .char '%' | .exp => .char '^' | .eq => .eq | .ne => .ne | .lt => .char '<' | .le => .le
  | .gt => .char '>' | .ge => .ge | .in => .in

mutual

/-- The tokens that are reduced to the tree. -/
def ExprTree.tokens : ExprTree → List Token
  | .integer n => [.integer n]
  | .float bits => [.float bits]
  | .string s => [.string s]
  | .object oid => [.object oid]
  | .error e => [.error e]
  | .id name => [.id name]
  | .dollarId name => [.char '$', .id name]
  | .prop obj name => obj.tokens ++ [.char '.', .id name]
  | .propExpr obj name => obj.tokens ++ [.char '.', .char '('] ++ name.tokens ++ [.char ')']
  | .verb obj name args =>
      obj.tokens ++ [.char ':', .id name, .char '('] ++ args.tokens ++ [.char ')']
  | .dollarVerb name args => [.char '$', .id name, .char '('] ++ args.tokens ++ [.char ')']
  | .verbExpr obj name args =>
      obj.tokens ++ [.char ':', .char '('] ++ name.tokens ++ [.char ')', .char '('] ++ args.tokens ++
        [.char ')']
  | .index base sub => base.tokens ++ [.char '['] ++ sub.tokens ++ [.char ']']
  | .range base «from» «to» =>
      base.tokens ++ [.char '['] ++ «from».tokens ++ [.to] ++ «to».tokens ++ [.char ']']
  | .dollar => [.char '$']
  | .assign lhs rhs => lhs.tokens ++ [.char '='] ++ rhs.tokens
  | .scatterAssign scatter rhs =>
      [.char '{'] ++ scatter.tokens ++ [.char '}', .char '='] ++ rhs.tokens
  | .call name args => [.id name, .char '('] ++ args.tokens ++ [.char ')']
  | .binary kind lhs rhs => lhs.tokens ++ [kind.token] ++ rhs.tokens
  | .and lhs rhs => lhs.tokens ++ [.and] ++ rhs.tokens
  | .or lhs rhs => lhs.tokens ++ [.or] ++ rhs.tokens
  | .negate expr => [.char '-'] ++ expr.tokens
  | .not expr => [.char '!'] ++ expr.tokens
  | .paren expr => [.char '('] ++ expr.tokens ++ [.char ')']
  | .list args => [.char '{'] ++ args.tokens ++ [.char '}']
  | .cond condition consequent alternate =>
      condition.tokens ++ [.char '?'] ++ consequent.tokens ++ [.char '|'] ++ alternate.tokens
  | .catch expr codes default =>
      [.char (Char.ofNat 96)] ++ expr.tokens ++ [.char '!'] ++ codes.tokens ++ default.tokens ++
        [.char (Char.ofNat 39)]

def CodesTree.tokens : CodesTree → List Token
  | .any => [.any]
  | .args args => args.tokens

def DefaultTree.tokens : DefaultTree → List Token
  | .nothing => []
  | .arrow expr => [.arrow] ++ expr.tokens

def ArglistTree.tokens : ArglistTree → List Token
  | .nothing => []
  | .args args => args.tokens

def NeArglistTree.tokens : NeArglistTree → List Token
  | .expr expr => expr.tokens
  | .splice expr => [.char '@'] ++ expr.tokens
  | .snoc args expr => args.tokens ++ [.char ','] ++ expr.tokens
  | .snocSplice args expr => args.tokens ++ [.char ',', .char '@'] ++ expr.tokens

def ScatterTree.tokens : ScatterTree → List Token
  | .args args item => args.tokens ++ [.char ','] ++ item.tokens
  | .item scatter item => scatter.tokens ++ [.char ','] ++ item.tokens
  | .id scatter name => scatter.tokens ++ [.char ',', .id name]
  | .splice scatter name => scatter.tokens ++ [.char ',', .char '@', .id name]
  | .single item => item.tokens

def ScatterItemTree.tokens : ScatterItemTree → List Token
  | .optional name => [.char '?', .id name]
  | .default name expr => [.char '?', .id name, .char '='] ++ expr.tokens

end

mutual

def StatementTree.tokens : StatementTree → List Token
  | .if condition body elseifs elsepart =>
      [.if, .char '('] ++ condition.tokens ++ [.char ')'] ++ body.tokens ++ elseifs.tokens ++
        elsepart.tokens ++ [.endif]
  | .forList name expr body =>
      [.for, .id name, .in, .char '('] ++ expr.tokens ++ [.char ')'] ++ body.tokens ++ [.endfor]
  | .forRange name «from» «to» body =>
      [.for, .id name, .in, .char '['] ++ «from».tokens ++ [.to] ++ «to».tokens ++ [.char ']'] ++
        body.tokens ++ [.endfor]
  | .while condition body =>
      [.while, .char '('] ++ condition.tokens ++ [.char ')'] ++ body.tokens ++ [.endwhile]
  | .whileId name condition body =>
      [.while, .id name, .char '('] ++ condition.tokens ++ [.char ')'] ++ body.tokens ++ [.endwhile]
  | .fork time body =>
      [.fork, .char '('] ++ time.tokens ++ [.char ')'] ++ body.tokens ++ [.endfork]
  | .forkId name time body =>
      [.fork, .id name, .char '('] ++ time.tokens ++ [.char ')'] ++ body.tokens ++ [.endfork]
  | .expr expr => expr.tokens ++ [.char ';']
  | .break => [.break, .char ';']
  | .breakId name => [.break, .id name, .char ';']
  | .continue => [.continue, .char ';']
  | .continueId name => [.continue, .id name, .char ';']
  | .return expr => [.return] ++ expr.tokens ++ [.char ';']
  | .return0 => [.return, .char ';']
  | .empty => [.char ';']
  | .tryExcept body excepts => [.try] ++ body.tokens ++ excepts.tokens ++ [.endtry]
  | .tryFinally body handler =>
      [.try] ++ body.tokens ++ [.finally] ++ handler.tokens ++ [.endtry]

def StatementsTree.tokens : StatementsTree → List Token
  | .nothing => []
  | .snoc statements statement => statements.tokens ++ statement.tokens

def ElseifsTree.tokens : ElseifsTree → List Token
  | .nothing => []
  | .snoc elseifs condition body =>
      elseifs.tokens ++ [.elseif, .char '('] ++ condition.tokens ++ [.char ')'] ++ body.tokens

def ElsepartTree.tokens : ElsepartTree → List Token
  | .nothing => []
  | .else body => [.else] ++ body.tokens

def ExceptsTree.tokens : ExceptsTree → List Token
  | .single except => [.except] ++ except.tokens
  | .snoc excepts except => excepts.tokens ++ [.except] ++ except.tokens

def ExceptTree.tokens : ExceptTree → List Token
  | .except id codes body =>
      (id.map Token.id).toList ++ [.char '('] ++ codes.tokens ++ [.char ')'] ++ body.tokens

end

end Waverous
