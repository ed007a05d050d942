import Waverous.Parser
import Waverous.CodeGenProofs

/-! # What the parser accepts

    The actions check for errors as they go; a tree without errors is valid.  A loop is known to
    the actions by its name and to the generator by the slot of the name, which may be found only
    when the body is done: so what is said of a statement holds for every table of names that the
    table becomes in the end. -/

namespace Waverous

open Views

/-- `dollars_ok` and `loop_stack`. -/
structure ScopeView where
  dollarsOk : Int
  loopStack : List LoopEntry

def ParserGlobals.view (st : ParserGlobals) : ScopeView := ⟨st.dollarsOk, st.loopStack⟩

/-- When the names become `N`, the action makes something that satisfies `Q`. -/
abbrev Parses {α : Type} (N : List Str) (v : ScopeView) (m : Action α) (Q : α → Prop)
    (v' : ScopeView) : Prop :=
  Makes ParserGlobals.view ParserGlobals.localNames N v m Q v'

section

variable {N : List Str} {v : ScopeView} {n : Int} {ls : List LoopEntry}

theorem error_parses {α : Type} {Q : α → Prop} {v' : ScopeView} (s : String) (t : Str) :
    Parses N v (error s t : Action α) Q v' := makes_throw _

theorem yyerror_parses {α : Type} {Q : α → Prop} {v' : ScopeView} (s : String) :
    Parses N v (yyerror s : Action α) Q v' := error_parses s []

/-! ## Names and their slots -/

/-- The slot of a name. -/
def slotIn (N : List Str) (name : Str) : Option Nat := N.findIdx? fun n => strcaseEq n name

theorem slotIn_congr {a b : Str} (h : strcaseEq a b = true) : slotIn N a = slotIn N b := by
  have hfun : (fun n => strcaseEq n a) = fun n => strcaseEq n b := by
    funext n
    rw [strcaseEq_comm n a, strcaseEq_comm n b, strcaseEq_congr h]
  rw [slotIn, hfun]
  rfl

/-- A name that has a slot keeps it. -/
theorem slotIn_prefix {M : List Str} {name : Str} {i : Nat} (h : slotIn M name = some i)
    (hMN : M <+: N) : slotIn N name = some i := by
  obtain ⟨rest, rfl⟩ := hMN
  unfold slotIn at h ⊢
  rw [List.findIdx?_append, h]
  rfl

theorem slotIn_findOrAddName (names : List Str) (str : Str) :
    slotIn (findOrAddName names str).1 str = some (findOrAddName names str).2 ∧
      names <+: (findOrAddName names str).1 := by
  cases h : slotIn names str with
  | some i =>
      have heq : findOrAddName names str = (names, i) := by
        unfold findOrAddName
        rw [show names.findIdx? (fun name => strcaseEq name str) = some i from h]
      rw [heq]
      exact ⟨h, List.prefix_rfl⟩
  | none =>
      have heq : findOrAddName names str = (names ++ [str], names.length) := by
        unfold findOrAddName
        rw [show names.findIdx? (fun name => strcaseEq name str) = none from h]
      rw [heq]
      refine ⟨?_, List.prefix_append names [str]⟩
      unfold slotIn at h ⊢
      rw [List.findIdx?_append, h]
      simp [List.findIdx?_cons, strcaseEq_refl]

/-- `find_id` gives the slot that the name has in the end. -/
theorem findId_parses (name : Str) :
    Parses N v (findId name) (fun slot => slotIn N name = some slot) v := by
  rintro st slot st' hst hrun
  cases hrun
  obtain ⟨hslot, hgrow⟩ := slotIn_findOrAddName st.localNames name
  exact ⟨hst, hgrow, slotIn_prefix hslot⟩

/-! ## Actions that only look -/

theorem warning_parses (warns : Bool) (s : String) (t : Str) :
    Parses N v (warning warns s t) Any v :=
  Makes.ite (fun _ => Makes.pure trivial) fun _ => error_parses s t

theorem vetScatter_parses : ∀ (sc : Scatter) (seenRest : Bool) (count : Nat),
    Parses N v (vetScatter sc seenRest count) Any v
  | .nil, _, _ => Makes.ite (fun _ => yyerror_parses _) fun _ => Makes.pure trivial
  | .cons .rest _ _ sc, _, count =>
      Makes.ite (fun _ => yyerror_parses _) fun _ => vetScatter_parses sc true (count + 1)
  | .cons .required _ _ sc, seenRest, count | .cons .optional _ _ sc, seenRest, count =>
      vetScatter_parses sc seenRest (count + 1)

theorem checkExcepts_parses : ∀ (excepts : ExceptArm) (count : Nat),
    Parses N v (checkExcepts excepts count) Any v
  | .nil, _ => Makes.pure trivial
  | .cons _ .nil _ .nil, _ => yyerror_parses _
  | .cons _ (.cons _ _ _) _ .nil, _ =>
      Makes.ite (fun _ => yyerror_parses _) fun _ => Makes.pure trivial
  | .cons _ _ _ (.cons i codes stmt next), count =>
      checkExcepts_parses (.cons i codes stmt next) (count + 1)

/-- Only variables are targets, and they have no defaults. -/
theorem scatterFromArglist_parses {dollar : Bool} : ∀ args : ArgList,
    Parses N v (scatterFromArglist args) (fun sc => sc.Valid dollar) v
  | .nil => Makes.pure .nil
  | .cons kind expr next => by
      cases expr
      case id i =>
        exact (scatterFromArglist_parses next).bind fun sc => Makes.pure fun hsc => .target hsc
      all_goals exact yyerror_parses _

/-! ## Assignments and calls -/

/-- What the check of an assignment finds behind the brackets makes the left side a target. -/
theorem Expr.Valid.target {dollar : Bool} : ∀ {e : Expr}, e.Valid dollar →
    (∃ i, indexBase e = .id i) ∨ (∃ lhs rhs, indexBase e = .prop lhs rhs) → e.Target dollar
  | _, .id, _ => .id
  | _, .prop hlhs hrhs, _ => .prop hlhs hrhs
  | _, .index hlhs hrhs, h => .index (hlhs.target h) hrhs
  | _, .var, h | _, .length, h | _, .verb _ _ _, h | _, .range _ _ _, h | _, .call _, h
  | _, .binary _ _, h | _, .negate _, h | _, .and _ _, h | _, .or _ _, h | _, .not _, h
  | _, .list _, h | _, .cond _ _ _, h | _, .catch _ _, h | _, .catchDefault _ _ _, h
  | _, .asgn _ _, h | _, .asgnRange _ _ _ _, h | _, .asgnScatter _ _, h => by
      rcases h with ⟨i, h⟩ | ⟨lhs, rhs, h⟩
      · cases h
      · cases h

theorem Expr.Valid.asgn_base {dollar : Bool} {lhs rhs : Expr} (hlhs : lhs.Valid dollar)
    (hrhs : rhs.Valid dollar) (h : (∃ i, indexBase (rangeBase lhs) = .id i) ∨
      (∃ a b, indexBase (rangeBase lhs) = .prop a b)) : (Expr.asgn lhs rhs).Valid dollar := by
  cases lhs
  case range base from' to' =>
    cases hlhs with
    | range hbase hfrom hto => exact .asgnRange (hbase.target h) hfrom hto hrhs
  all_goals exact .asgn (hlhs.target h) hrhs

theorem assignment_parses {dollar : Bool} (lhs rhs : Expr) :
    Parses N v (assignment lhs rhs)
      (fun e => rhs.Valid dollar → lhs.Valid dollar → e.Valid dollar) v := by
  by_cases hlist : ∃ args, lhs = .list args
  · obtain ⟨args, rfl⟩ := hlist
    cases args with
    | nil => exact yyerror_parses _
    | cons kind expr next =>
        exact (scatterFromArglist_parses (.cons kind expr next)).bind fun sc =>
          (vetScatter_parses sc false 0).bind fun _ =>
            Makes.pure fun _ hsc hrhs _ => .asgnScatter hsc hrhs
  · unfold assignment
    split
    · exact absurd ⟨_, rfl⟩ hlist
    · exact absurd ⟨_, rfl⟩ hlist
    cases hbase : indexBase (rangeBase lhs)
    case id i => exact Makes.pure fun hrhs hlhs => hlhs.asgn_base hrhs (.inl ⟨i, hbase⟩)
    case prop a b => exact Makes.pure fun hrhs hlhs => hlhs.asgn_base hrhs (.inr ⟨a, b, hbase⟩)
    all_goals exact yyerror_parses _

theorem negation_valid {dollar : Bool} {e : Expr} (h : e.Valid dollar) : (negation e).Valid dollar := by
  cases e
  case var v => cases v <;> first | exact .var | exact .negate .var
  all_goals exact .negate h

theorem functionCall_parses {dollar : Bool} (t : BfTable) (warns : Bool) (name : Str) (args : ArgList) :
    Parses N v (functionCall t warns name args) (fun e => args.Valid dollar → e.Valid dollar) v := by
  unfold functionCall
  cases t.numberFuncByName name with
  | none =>
      exact (warning_parses warns _ name).bind fun _ =>
        Makes.pure fun _ hargs => .call (.cons .var hargs)
  | some fNo => exact Makes.pure fun hargs => .call hargs

/-! ## Expressions -/

theorem dollarsUp_parses : Parses N ⟨n, ls⟩ dollarsUp Any ⟨n + 1, ls⟩ := by
  refine makes_modify (fun st hst => ?_) fun _ => rfl
  obtain ⟨rfl, rfl⟩ := ScopeView.mk.inj hst
  rfl

theorem dollarsDown_parses : Parses N ⟨n + 1, ls⟩ dollarsDown Any ⟨n, ls⟩ := by
  refine makes_modify (fun st hst => ?_) fun _ => rfl
  obtain ⟨hn, rfl⟩ := ScopeView.mk.inj hst
  show ScopeView.mk (st.dollarsOk - 1) _ = _
  rw [hn, Int.add_sub_cancel]

section

variable (t : BfTable) (warns : Bool)

mutual

/-- An expression in which `$` is all right if `n` is not 0, with `n` as it was. -/
theorem ExprTree.parses (N : List Str) (ls : List LoopEntry) :
    ∀ (tree : ExprTree) {n : Int}, 0 ≤ n →
      Parses N ⟨n, ls⟩ (tree.reduce t warns) (fun e => e.Valid (decide (n ≠ 0))) ⟨n, ls⟩
  | .integer _, _, _ | .float _, _, _ | .string _, _, _ | .object _, _, _ | .error _, _, _ =>
      Makes.pure .var
  | .id name, _, _ => (findId_parses name).bind fun _ => Makes.pure fun _ => .id
  | .dollarId _, _, _ => Makes.pure (.prop .var .var)
  | .prop obj _, n, hn => (obj.parses N ls hn).bind fun _ => Makes.pure fun hobj => .prop hobj .var
  | .propExpr obj name, n, hn =>
      (obj.parses N ls hn).bind fun _ => (name.parses N ls hn).bind fun _ =>
        Makes.pure fun hname hobj => .prop hobj hname
  | .verb obj _ args, n, hn =>
      (obj.parses N ls hn).bind fun _ => (args.parses N ls hn).bind fun _ =>
        Makes.pure fun hargs hobj => .verb hobj .var hargs
  | .dollarVerb _ args, n, hn =>
      (args.parses N ls hn).bind fun _ => Makes.pure fun hargs => .verb .var .var hargs
  | .verbExpr obj name args, n, hn =>
      (obj.parses N ls hn).bind fun _ => (name.parses N ls hn).bind fun _ =>
        (args.parses N ls hn).bind fun _ => Makes.pure fun hargs hname hobj => .verb hobj hname hargs
  | .index base sub, n, hn => by
      have hsub := sub.parses N ls (n := n + 1) (by omega)
      rw [decide_eq_true (show n + 1 ≠ 0 by omega)] at hsub
      exact (base.parses N ls hn).bind fun _ => dollarsUp_parses.bind fun _ => hsub.bind fun _ =>
        dollarsDown_parses.bind fun _ => Makes.pure fun _ hsub _ hbase => .index hbase hsub
  | .range base from' to', n, hn => by
      have hfrom := from'.parses N ls (n := n + 1) (by omega)
      have hto := to'.parses N ls (n := n + 1) (by omega)
      rw [decide_eq_true (show n + 1 ≠ 0 by omega)] at hfrom hto
      exact (base.parses N ls hn).bind fun _ => dollarsUp_parses.bind fun _ => hfrom.bind fun _ =>
        hto.bind fun _ => dollarsDown_parses.bind fun _ =>
          Makes.pure fun _ hto hfrom _ hbase => .range hbase hfrom hto
  | .dollar, n, _ => by
      refine makes_get.bind fun st => Makes.ite (fun _ => yyerror_parses _) fun hst => ?_
      refine Makes.pure fun hview => ?_
      have hn : n ≠ 0 := (ScopeView.mk.inj hview).1 ▸ hst
      rw [decide_eq_true hn]
      exact .length
  | .assign lhs rhs, n, hn =>
      (lhs.parses N ls hn).bind fun _ => (rhs.parses N ls hn).bind fun _ => assignment_parses _ _
  | .scatterAssign scatter rhs, n, hn =>
      (scatter.parses N ls hn).bind fun _ => (rhs.parses N ls hn).bind fun _ =>
        (vetScatter_parses _ false 0).bind fun _ =>
          Makes.pure fun _ hrhs hsc => .asgnScatter hsc hrhs
  | .call name args, n, hn => (args.parses N ls hn).bind fun _ => functionCall_parses t warns name _
  | .binary _ lhs rhs, n, hn =>
      (lhs.parses N ls hn).bind fun _ => (rhs.parses N ls hn).bind fun _ =>
        Makes.pure fun hrhs hlhs => .binary hlhs hrhs
  | .and lhs rhs, n, hn =>
      (lhs.parses N ls hn).bind fun _ => (rhs.parses N ls hn).bind fun _ =>
        Makes.pure fun hrhs hlhs => .and hlhs hrhs
  | .or lhs rhs, n, hn =>
      (lhs.parses N ls hn).bind fun _ => (rhs.parses N ls hn).bind fun _ =>
        Makes.pure fun hrhs hlhs => .or hlhs hrhs
  | .negate expr, n, hn => (expr.parses N ls hn).bind fun _ => Makes.pure negation_valid
  | .not expr, n, hn => (expr.parses N ls hn).bind fun _ => Makes.pure .not
  | .paren expr, n, hn => expr.parses N ls hn
  | .list args, n, hn => (args.parses N ls hn).bind fun _ => Makes.pure .list
  | .cond e e' e'', n, hn =>
      (e.parses N ls hn).bind fun _ => (e'.parses N ls hn).bind fun _ =>
        (e''.parses N ls hn).bind fun _ => Makes.pure fun he'' he' he => .cond he he' he''
  | .catch expr codes default, n, hn =>
      (expr.parses N ls hn).bind fun _ => (codes.parses N ls hn).bind fun _ =>
        (default.parses N ls hn).bind fun
          | none => Makes.pure fun _ hcodes he => .catch he hcodes
          | some _ => Makes.pure fun hdefault hcodes he => .catchDefault he hcodes (hdefault _ rfl)

theorem CodesTree.parses (N : List Str) (ls : List LoopEntry) :
    ∀ (tree : CodesTree) {n : Int}, 0 ≤ n →
      Parses N ⟨n, ls⟩ (tree.reduce t warns) (fun args => args.Valid (decide (n ≠ 0))) ⟨n, ls⟩
  | .any, _, _ => Makes.pure .nil
  | .args args, _, hn => args.parses N ls hn

theorem DefaultTree.parses (N : List Str) (ls : List LoopEntry) :
    ∀ (tree : DefaultTree) {n : Int}, 0 ≤ n →
      Parses N ⟨n, ls⟩ (tree.reduce t warns) (fun e => ∀ e', e = some e' → e'.Valid (decide (n ≠ 0)))
        ⟨n, ls⟩
  | .nothing, _, _ => Makes.pure nofun
  | .arrow expr, _, hn =>
      (expr.parses N ls hn).bind fun _ => Makes.pure fun he _ heq => Option.some.inj heq ▸ he

theorem ArglistTree.parses (N : List Str) (ls : List LoopEntry) :
    ∀ (tree : ArglistTree) {n : Int}, 0 ≤ n →
      Parses N ⟨n, ls⟩ (tree.reduce t warns) (fun args => args.Valid (decide (n ≠ 0))) ⟨n, ls⟩
  | .nothing, _, _ => Makes.pure .nil
  | .args args, _, hn => args.parses N ls hn

theorem NeArglistTree.parses (N : List Str) (ls : List LoopEntry) :
    ∀ (tree : NeArglistTree) {n : Int}, 0 ≤ n →
      Parses N ⟨n, ls⟩ (tree.reduce t warns) (fun args => args.Valid (decide (n ≠ 0))) ⟨n, ls⟩
  | .expr expr, _, hn | .splice expr, _, hn =>
      (expr.parses N ls hn).bind fun _ => Makes.pure fun he => .cons he .nil
  | .snoc args expr, _, hn | .snocSplice args expr, _, hn =>
      (args.parses N ls hn).bind fun _ => (expr.parses N ls hn).bind fun _ =>
        Makes.pure fun he hargs => hargs.append (.cons he .nil)

theorem ScatterTree.parses (N : List Str) (ls : List LoopEntry) :
    ∀ (tree : ScatterTree) {n : Int}, 0 ≤ n →
      Parses N ⟨n, ls⟩ (tree.reduce t warns) (fun sc => sc.Valid (decide (n ≠ 0))) ⟨n, ls⟩
  | .args args item, _, hn =>
      (args.parses N ls hn).bind fun _ => (item.parses N ls hn).bind fun _ =>
        (scatterFromArglist_parses _).bind fun _ => Makes.pure fun hsc hitem _ => hsc.append hitem
  | .item scatter item, _, hn =>
      (scatter.parses N ls hn).bind fun _ => (item.parses N ls hn).bind fun _ =>
        Makes.pure fun hitem hsc => hsc.append hitem
  | .id scatter name, _, hn | .splice scatter name, _, hn =>
      (scatter.parses N ls hn).bind fun _ => (findId_parses name).bind fun _ =>
        Makes.pure fun _ hsc => hsc.append (.target .nil)
  | .single item, _, hn => item.parses N ls hn

theorem ScatterItemTree.parses (N : List Str) (ls : List LoopEntry) :
    ∀ (tree : ScatterItemTree) {n : Int}, 0 ≤ n →
      Parses N ⟨n, ls⟩ (tree.reduce t warns) (fun sc => sc.Valid (decide (n ≠ 0))) ⟨n, ls⟩
  | .optional name, _, _ => (findId_parses name).bind fun _ => Makes.pure fun _ => .target .nil
  | .default name expr, _, hn =>
      (expr.parses N ls hn).bind fun _ => (findId_parses name).bind fun _ =>
        Makes.pure fun _ he => .default he .nil

end

/-! ## Loops -/

/-- The identifier that the generator has for a loop. -/
def loopId (N : List Str) (entry : LoopEntry) : Int :=
  match entry.name with
  | none => -1
  | some name => ((slotIn N name).getD 0 : Nat)

/-- The identifiers of the loops that can be left. -/
def loopIds (N : List Str) (ls : List LoopEntry) : List Int := (loopScope ls).map (loopId N)

theorem loopId_some {N : List Str} {name : Str} {slot : Nat} (h : slotIn N name = some slot) :
    loopId N ⟨some name, false⟩ = slot := by
  show ((slotIn N name).getD 0 : Nat) = (slot : Int)
  rw [h]
  rfl

variable {N : List Str} {v : ScopeView} {n : Int} {ls : List LoopEntry}

theorem pushLoopName_parses (name : Option Str) :
    Parses N ⟨n, ls⟩ (pushLoopName name) Any ⟨n, ⟨name, false⟩ :: ls⟩ := by
  refine makes_modify (fun st hst => ?_) fun _ => rfl
  obtain ⟨rfl, rfl⟩ := ScopeView.mk.inj hst
  rfl

theorem popLoopName_parses {name : Option Str} :
    Parses N ⟨n, ⟨name, false⟩ :: ls⟩ popLoopName Any ⟨n, ls⟩ := by
  refine makes_modify (fun st hst => ?_) fun st => ?_
  · obtain ⟨rfl, hls⟩ := ScopeView.mk.inj hst
    rw [hls]
    rfl
  · split <;> rfl

theorem suspendLoopScope_parses :
    Parses N ⟨n, ls⟩ suspendLoopScope Any ⟨n, ⟨none, true⟩ :: ls⟩ := by
  refine makes_modify (fun st hst => ?_) fun _ => rfl
  obtain ⟨rfl, rfl⟩ := ScopeView.mk.inj hst
  rfl

theorem resumeLoopScope_parses :
    Parses N ⟨n, ⟨none, true⟩ :: ls⟩ resumeLoopScope Any ⟨n, ls⟩ := by
  refine makes_modify (fun st hst => ?_) fun st => ?_
  · obtain ⟨rfl, hls⟩ := ScopeView.mk.inj hst
    rw [hls]
    rfl
  · split <;> rfl

/-- An unnamed exit is in a loop. -/
theorem checkLoopName_none (kind : LoopExitKind) :
    Parses N ⟨n, ls⟩ (checkLoopName none kind) (fun _ => ExitValid (loopIds N ls) (-1)) ⟨n, ls⟩ := by
  refine makes_get.bind fun st => Makes.ite (fun _ => yyerror_parses _) fun hempty => ?_
  refine Makes.pure fun hview => ?_
  have hls : st.loopStack = ls := (ScopeView.mk.inj hview).2
  unfold ExitValid
  rw [if_pos rfl]
  rintro hnil
  rw [hls] at hempty
  rw [loopIds, List.map_eq_nil_iff] at hnil
  rw [hnil] at hempty
  exact hempty rfl

/-- A named exit is in a loop with the slot of that name. -/
theorem checkLoopName_some (name : Str) (kind : LoopExitKind) :
    Parses N ⟨n, ls⟩ (checkLoopName (some name) kind)
      (fun _ => ∀ slot : Nat, slotIn N name = some slot → ExitValid (loopIds N ls) slot) ⟨n, ls⟩ := by
  refine makes_get.bind fun st => Makes.ite (fun hany => ?_) fun _ => error_parses _ _
  refine Makes.pure fun hview slot hslot => ?_
  have hls : st.loopStack = ls := (ScopeView.mk.inj hview).2
  rw [hls, List.any_eq_true] at hany
  obtain ⟨entry, hmem, hname⟩ := hany
  unfold ExitValid
  rw [if_neg (by omega)]
  refine List.mem_map.mpr ⟨entry, hmem, ?_⟩
  obtain ⟨entryName, isBarrier⟩ := entry
  cases entryName with
  | none => cases hname
  | some m =>
      have hm : slotIn N m = some slot := (slotIn_congr hname).trans hslot
      exact loopId_some hm

/-! ## Statements -/

theorem single_valid {stmt : Stmt} {loops : List Int} (h : stmt.Valid loops) :
    stmt.single.Valid loops := .cons h .nil

mutual

/-- A statement that leaves only loops around it, with the scopes as they were. -/
theorem StatementTree.parses (N : List Str) : ∀ (tree : StatementTree) (ls : List LoopEntry),
    Parses N ⟨0, ls⟩ (tree.reduce t warns) (fun stmts => stmts.Valid (loopIds N ls)) ⟨0, ls⟩
  | .if condition body elseifs elsepart, ls =>
      (condition.parses t warns N ls (Int.le_refl 0)).bind fun _ => (body.parses N ls).bind fun _ =>
        (elseifs.parses N ls).bind fun _ => (elsepart.parses N ls).bind fun _ =>
          Makes.pure fun helse helseifs hbody he =>
            single_valid (.cond (.cons he hbody helseifs) helse)
  | .forList name expr body, ls =>
      (expr.parses t warns N ls (Int.le_refl 0)).bind fun _ => (pushLoopName_parses _).bind fun _ =>
        (body.parses N _).bind fun _ => (findId_parses name).bind fun _ =>
          popLoopName_parses.bind fun _ => Makes.pure fun _ hslot hbody _ he =>
            single_valid (.list he (loopId_some hslot ▸ hbody))
  | .forRange name from' to' body, ls =>
      (from'.parses t warns N ls (Int.le_refl 0)).bind fun _ =>
        (to'.parses t warns N ls (Int.le_refl 0)).bind fun _ => (pushLoopName_parses _).bind fun _ =>
          (body.parses N _).bind fun _ => (findId_parses name).bind fun _ =>
            popLoopName_parses.bind fun _ => Makes.pure fun _ hslot hbody _ hto hfrom =>
              single_valid (.range hfrom hto (loopId_some hslot ▸ hbody))
  | .while condition body, ls =>
      (condition.parses t warns N ls (Int.le_refl 0)).bind fun _ => (pushLoopName_parses _).bind fun _ =>
        (body.parses N _).bind fun _ => popLoopName_parses.bind fun _ =>
          Makes.pure fun _ hbody _ he => single_valid (.while he hbody)
  | .whileId name condition body, ls =>
      (condition.parses t warns N ls (Int.le_refl 0)).bind fun _ => (pushLoopName_parses _).bind fun _ =>
        (body.parses N _).bind fun _ => (findId_parses name).bind fun _ =>
          popLoopName_parses.bind fun _ => Makes.pure fun _ hslot hbody _ he =>
            single_valid (.while he (loopId_some hslot ▸ hbody))
  | .fork time body, ls =>
      (time.parses t warns N ls (Int.le_refl 0)).bind fun _ => suspendLoopScope_parses.bind fun _ =>
        (body.parses N _).bind fun _ => resumeLoopScope_parses.bind fun _ =>
          Makes.pure fun _ hbody _ he => single_valid (.fork he hbody)
  | .forkId name time body, ls =>
      (time.parses t warns N ls (Int.le_refl 0)).bind fun _ => suspendLoopScope_parses.bind fun _ =>
        (body.parses N _).bind fun _ => (findId_parses name).bind fun _ =>
          resumeLoopScope_parses.bind fun _ => Makes.pure fun _ _ hbody _ he =>
            single_valid (.fork he hbody)
  | .expr expr, ls =>
      (expr.parses t warns N ls (Int.le_refl 0)).bind fun _ => Makes.pure fun he => single_valid (.expr he)
  | .break, _ => (checkLoopName_none _).bind fun _ => Makes.pure fun h => single_valid (.break h)
  | .breakId name, _ =>
      (checkLoopName_some name _).bind fun _ => (findId_parses name).bind fun slot =>
        Makes.pure fun hslot h => single_valid (.break (h slot hslot))
  | .continue, _ => (checkLoopName_none _).bind fun _ => Makes.pure fun h => single_valid (.continue h)
  | .continueId name, _ =>
      (checkLoopName_some name _).bind fun _ => (findId_parses name).bind fun slot =>
        Makes.pure fun hslot h => single_valid (.continue (h slot hslot))
  | .return expr, ls =>
      (expr.parses t warns N ls (Int.le_refl 0)).bind fun _ => Makes.pure fun he => single_valid (.return he)
  | .return0, _ => Makes.pure (single_valid .return0)
  | .empty, _ => Makes.pure .nil
  | .tryExcept body excepts, ls =>
      (body.parses N ls).bind fun _ => (excepts.parses N ls).bind fun _ =>
        Makes.pure fun hexcepts hbody => single_valid (.tryExcept hbody hexcepts)
  | .tryFinally body handler, ls =>
      (body.parses N ls).bind fun _ => (handler.parses N ls).bind fun _ =>
        Makes.pure fun hhandler hbody => single_valid (.tryFinally hbody hhandler)

theorem StatementsTree.parses (N : List Str) : ∀ (tree : StatementsTree) (ls : List LoopEntry),
    Parses N ⟨0, ls⟩ (tree.reduce t warns) (fun stmts => stmts.Valid (loopIds N ls)) ⟨0, ls⟩
  | .nothing, _ => Makes.pure .nil
  | .snoc statements statement, ls =>
      (statements.parses N ls).bind fun _ => (statement.parses N ls).bind fun _ =>
        Makes.pure fun hlast hstmts => hstmts.append hlast

theorem ElseifsTree.parses (N : List Str) : ∀ (tree : ElseifsTree) (ls : List LoopEntry),
    Parses N ⟨0, ls⟩ (tree.reduce t warns) (fun arms => arms.Valid (loopIds N ls)) ⟨0, ls⟩
  | .nothing, _ => Makes.pure .nil
  | .snoc elseifs condition body, ls =>
      (elseifs.parses N ls).bind fun _ => (condition.parses t warns N ls (Int.le_refl 0)).bind fun _ =>
        (body.parses N ls).bind fun _ => Makes.pure fun hbody he harms =>
          harms.append (.cons he hbody .nil)

theorem ElsepartTree.parses (N : List Str) : ∀ (tree : ElsepartTree) (ls : List LoopEntry),
    Parses N ⟨0, ls⟩ (tree.reduce t warns) (fun stmts => stmts.Valid (loopIds N ls)) ⟨0, ls⟩
  | .nothing, _ => Makes.pure .nil
  | .else body, ls => body.parses N ls

theorem ExceptsTree.parses (N : List Str) : ∀ (tree : ExceptsTree) (ls : List LoopEntry),
    Parses N ⟨0, ls⟩ (tree.reduce t warns) (fun arms => arms.Valid (loopIds N ls)) ⟨0, ls⟩
  | .single except, ls => except.parses N ls
  | .snoc excepts except, ls =>
      (excepts.parses N ls).bind fun _ => (checkExcepts_parses _ 1).bind fun _ =>
        (except.parses N ls).bind fun _ => Makes.pure fun hlast _ harms => harms.append hlast

theorem ExceptTree.parses (N : List Str) : ∀ (tree : ExceptTree) (ls : List LoopEntry),
    Parses N ⟨0, ls⟩ (tree.reduce t warns) (fun arms => arms.Valid (loopIds N ls)) ⟨0, ls⟩
  | .except none codes body, ls =>
      (codes.parses t warns N ls (Int.le_refl 0)).bind fun _ => (body.parses N ls).bind fun _ =>
        Makes.pure fun hbody hcodes => .cons hcodes hbody .nil
  | .except (some name) codes body, ls =>
      (codes.parses t warns N ls (Int.le_refl 0)).bind fun _ => (body.parses N ls).bind fun _ =>
        (findId_parses name).bind fun _ => Makes.pure fun _ hbody hcodes => .cons hcodes hbody .nil

end

/-- What the parser accepts is valid. -/
theorem Accepts.valid {version : Nat} {tokens : List Token} {progStart : StmtList}
    {localNames : List Str} (h : Accepts t warns version tokens progStart localNames) :
    progStart.Valid [] := by
  obtain ⟨tree, -, st, hrun, -⟩ := h
  obtain ⟨-, -, hvalid⟩ := tree.parses t warns st.localNames [] _ _ _ rfl hrun
  exact hvalid List.prefix_rfl

/-- Of every text that is accepted the generator makes a program. -/
theorem accepted_generates {version : Nat} {tokens : List Token} {progStart : StmtList}
    {localNames : List Str} (h : Accepts t warns version tokens progStart localNames) :
    ∃ p, generateCode progStart version localNames = some p :=
  generateCode_isSome (Accepts.valid t warns h) version localNames

end

end

/-! ### An accepted text -/

/-- No functions. -/
def emptyTable : BfTable := ⟨[], by decide, .nil, by decide⟩

/-- `for x in (args) {y, ?z = x[$]} = x; if (z) break x; endif fork (3) y[1][2..$] = z; endfork endfor` -/
def sampleText : StatementsTree :=
  let name := fun s => Str.ofString s
  let var := fun s => ExprTree.id (name s)
  let two := StatementsTree.snoc StatementsTree.nothing
    (.expr (.scatterAssign
      (.args (.expr (var "y")) (.default (name "z") (.index (var "x") .dollar))) (var "x")))
  let three := two.snoc (.if (var "z") (.snoc .nothing (.breakId (name "x"))) .nothing .nothing)
  let body := three.snoc (.fork (.integer 3) (.snoc .nothing
    (.expr (.assign (.range (.index (var "y") (.integer 1)) (.integer 2) .dollar) (var "z")))))
  .snoc .nothing (.forList (name "x") (var "args") body)

theorem accepted_generates_loop : ∃ progStart localNames,
    Accepts emptyTable false 4 sampleText.tokens progStart localNames ∧
      ∃ p, generateCode progStart 4 localNames = some p := by
  have h : Accepts emptyTable false 4 sampleText.tokens _ _ := ⟨sampleText, rfl, _, rfl, rfl⟩
  exact ⟨_, _, h, accepted_generates emptyTable false h⟩

end Waverous
