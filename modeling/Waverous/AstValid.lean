import Waverous.Ast

/-! # Trees that the code generator takes

    What the generator relies on, said of the tree alone: `$` stands only inside the brackets of
    an index or a range, a value is assigned only to what can be assigned to, and a `break` or
    `continue` names a loop around it in the same vector. -/

namespace Waverous

mutual

/-- An expression, with `$` in it if `dollar`. -/
inductive Expr.Valid : Bool → Expr → Prop where
  | var {dollar v} : Expr.Valid dollar (.var v)
  | id {dollar i} : Expr.Valid dollar (.id i)
  | length : Expr.Valid true .length
  | prop {dollar lhs rhs} : Expr.Valid dollar lhs → Expr.Valid dollar rhs →
      Expr.Valid dollar (.prop lhs rhs)
  | verb {dollar obj verb args} : Expr.Valid dollar obj → Expr.Valid dollar verb →
      ArgList.Valid dollar args → Expr.Valid dollar (.verb obj verb args)
  | index {dollar lhs rhs} : Expr.Valid dollar lhs → Expr.Valid true rhs →
      Expr.Valid dollar (.index lhs rhs)
  | range {dollar base from' to'} : Expr.Valid dollar base → Expr.Valid true from' →
      Expr.Valid true to' → Expr.Valid dollar (.range base from' to')
  | call {dollar func args} : ArgList.Valid dollar args → Expr.Valid dollar (.call func args)
  | binary {dollar kind lhs rhs} : Expr.Valid dollar lhs → Expr.Valid dollar rhs →
      Expr.Valid dollar (.binary kind lhs rhs)
  | negate {dollar e} : Expr.Valid dollar e → Expr.Valid dollar (.negate e)
  | and {dollar lhs rhs} : Expr.Valid dollar lhs → Expr.Valid dollar rhs →
      Expr.Valid dollar (.and lhs rhs)
  | or {dollar lhs rhs} : Expr.Valid dollar lhs → Expr.Valid dollar rhs →
      Expr.Valid dollar (.or lhs rhs)
  | not {dollar e} : Expr.Valid dollar e → Expr.Valid dollar (.not e)
  | list {dollar args} : ArgList.Valid dollar args → Expr.Valid dollar (.list args)
  | cond {dollar e e' e''} : Expr.Valid dollar e → Expr.Valid dollar e' → Expr.Valid dollar e'' →
      Expr.Valid dollar (.cond e e' e'')
  | catch {dollar e codes} : Expr.Valid dollar e → ArgList.Valid dollar codes →
      Expr.Valid dollar (.catch e codes none)
  | catchDefault {dollar e codes e'} : Expr.Valid dollar e → ArgList.Valid dollar codes →
      Expr.Valid dollar e' → Expr.Valid dollar (.catch e codes (some e'))
  | asgn {dollar lhs rhs} : Expr.Target dollar lhs → Expr.Valid dollar rhs →
      Expr.Valid dollar (.asgn lhs rhs)
  | asgnRange {dollar base from' to' rhs} : Expr.Target dollar base → Expr.Valid true from' →
      Expr.Valid true to' → Expr.Valid dollar rhs →
      Expr.Valid dollar (.asgn (.range base from' to') rhs)
  | asgnScatter {dollar sc rhs} : Scatter.Valid dollar sc → Expr.Valid dollar rhs →
      Expr.Valid dollar (.asgn (.scatter sc) rhs)

/-- A variable, a property, or an element of one. -/
inductive Expr.Target : Bool → Expr → Prop where
  | id {dollar i} : Expr.Target dollar (.id i)
  | prop {dollar lhs rhs} : Expr.Valid dollar lhs → Expr.Valid dollar rhs →
      Expr.Target dollar (.prop lhs rhs)
  | index {dollar lhs rhs} : Expr.Target dollar lhs → Expr.Valid true rhs →
      Expr.Target dollar (.index lhs rhs)

inductive ArgList.Valid : Bool → ArgList → Prop where
  | nil {dollar} : ArgList.Valid dollar .nil
  | cons {dollar kind e next} : Expr.Valid dollar e → ArgList.Valid dollar next →
      ArgList.Valid dollar (.cons kind e next)

inductive Scatter.Valid : Bool → Scatter → Prop where
  | nil {dollar} : Scatter.Valid dollar .nil
  | target {dollar kind i next} : Scatter.Valid dollar next →
      Scatter.Valid dollar (.cons kind i none next)
  | default {dollar kind i e next} : Expr.Valid dollar e → Scatter.Valid dollar next →
      Scatter.Valid dollar (.cons kind i (some e) next)

end

/-- The identifier of a loop that can be left, among those of the loops around; -1 is for the
    innermost one. -/
def ExitValid (loops : List Int) (exit : Int) : Prop :=
  if exit = -1 then loops ≠ [] else exit ∈ loops

mutual

/-- A statement, in loops with these identifiers. -/
inductive Stmt.Valid : List Int → Stmt → Prop where
  | cond {loops arms otherwise} : CondArm.Valid loops arms → StmtList.Valid loops otherwise →
      Stmt.Valid loops (.cond arms otherwise)
  | list {loops i e body} : Expr.Valid false e → StmtList.Valid ((i : Nat) :: loops) body →
      Stmt.Valid loops (.list i e body)
  | range {loops i from' to' body} : Expr.Valid false from' → Expr.Valid false to' →
      StmtList.Valid ((i : Nat) :: loops) body → Stmt.Valid loops (.range i from' to' body)
  | while {loops i e body} : Expr.Valid false e → StmtList.Valid (i :: loops) body →
      Stmt.Valid loops (.while i e body)
  | fork {loops i e body} : Expr.Valid false e → StmtList.Valid [] body →
      Stmt.Valid loops (.fork i e body)
  | expr {loops e} : Expr.Valid false e → Stmt.Valid loops (.expr e)
  | return {loops e} : Expr.Valid false e → Stmt.Valid loops (.return (some e))
  | return0 {loops} : Stmt.Valid loops (.return none)
  | tryExcept {loops body excepts} : StmtList.Valid loops body → ExceptArm.Valid loops excepts →
      Stmt.Valid loops (.tryExcept body excepts)
  | tryFinally {loops body handler} : StmtList.Valid loops body → StmtList.Valid loops handler →
      Stmt.Valid loops (.tryFinally body handler)
  | break {loops exit} : ExitValid loops exit → Stmt.Valid loops (.break exit)
  | continue {loops exit} : ExitValid loops exit → Stmt.Valid loops (.continue exit)

inductive StmtList.Valid : List Int → StmtList → Prop where
  | nil {loops} : StmtList.Valid loops .nil
  | cons {loops stmt next} : Stmt.Valid loops stmt → StmtList.Valid loops next →
      StmtList.Valid loops (.cons stmt next)

inductive CondArm.Valid : List Int → CondArm → Prop where
  | nil {loops} : CondArm.Valid loops .nil
  | cons {loops e stmt next} : Expr.Valid false e → StmtList.Valid loops stmt →
      CondArm.Valid loops next → CondArm.Valid loops (.cons e stmt next)

inductive ExceptArm.Valid : List Int → ExceptArm → Prop where
  | nil {loops} : ExceptArm.Valid loops .nil
  | cons {loops i codes stmt next} : ArgList.Valid false codes → StmtList.Valid loops stmt →
      ExceptArm.Valid loops next → ExceptArm.Valid loops (.cons i codes stmt next)

end

/-! ## Appending -/

theorem ArgList.Valid.append {dollar : Bool} : ∀ {args last : ArgList}, args.Valid dollar →
    last.Valid dollar → (args.append last).Valid dollar
  | .nil, _, .nil, hlast => hlast
  | .cons _ _ _, _, .cons he hnext, hlast => .cons he (hnext.append hlast)

theorem Scatter.Valid.append {dollar : Bool} : ∀ {sc last : Scatter}, sc.Valid dollar →
    last.Valid dollar → (sc.append last).Valid dollar
  | .nil, _, .nil, hlast => hlast
  | .cons _ _ none _, _, .target hnext, hlast => .target (hnext.append hlast)
  | .cons _ _ (some _) _, _, .default he hnext, hlast => .default he (hnext.append hlast)

theorem StmtList.Valid.append {loops : List Int} : ∀ {stmts last : StmtList}, stmts.Valid loops →
    last.Valid loops → (stmts.append last).Valid loops
  | .nil, _, .nil, hlast => hlast
  | .cons _ _, _, .cons hstmt hnext, hlast => .cons hstmt (hnext.append hlast)

theorem CondArm.Valid.append {loops : List Int} : ∀ {arms last : CondArm}, arms.Valid loops →
    last.Valid loops → (arms.append last).Valid loops
  | .nil, _, .nil, hlast => hlast
  | .cons _ _ _, _, .cons he hstmt hnext, hlast => .cons he hstmt (hnext.append hlast)

theorem ExceptArm.Valid.append {loops : List Int} : ∀ {arms last : ExceptArm}, arms.Valid loops →
    last.Valid loops → (arms.append last).Valid loops
  | .nil, _, .nil, hlast => hlast
  | .cons _ _ _ _, _, .cons hcodes hstmt hnext, hlast =>
      .cons hcodes hstmt (hnext.append hlast)

end Waverous
