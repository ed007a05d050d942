import Waverous.CodeVector

/-! # A part of a program in its code — `code_gen.c`

    Each statement and expression of a program is generated at some time, between what comes
    before it and what comes after it.  What comes after it does not change its labels: they
    are newer than all that is to be defined yet, and the chains of the loops around it do not
    have them. -/

namespace Waverous

open Links

variable {α β : Type} {x : Gen Unit} {s s' s1 s2 s4 : GenState} {H : List Nat} {R : Nat → Prop}

/-- The generation of `x` from `s2` on is a part of that of `m` from `s` on. -/
inductive Part (x : Gen Unit) (s2 : GenState) :
    {α : Type} → List Nat → Gen α → (α → List Nat) → GenState → Prop where
  | here {H : List Nat} : Part x s2 H x noLabels s2
  | after {α β : Type} {H : List Nat} {m : Gen β} {f : β → Gen α} {o : β → List Nat}
      {o' : α → List Nat} {s s1 : GenState} {b : β} :
      Does H m o → m s = some (b, s1) → Part x s2 (o b ++ H) (f b) o' s1 →
      Part x s2 H (m >>= f) o' s
  | first {α β : Type} {H : List Nat} {m : Gen β} {f : β → Gen α} {o : β → List Nat}
      {o' : α → List Nat} {s : GenState} :
      (∀ b, Does (o b ++ H) (f b) o') → Part x s2 H m o s → Part x s2 H (m >>= f) o' s
  | loop {α : Type} {H : List Nat} {id topStack bottomStack : Int} {top : Fixup}
      {label : Option Nat} {body : Gen Unit} {k : Option Nat → Gen α} {o : α → List Nat}
      {s : GenState} :
      (∀ n, label = some n → n ∈ H) → top.kind = .label → (∀ b, Does (b.toList ++ H) (k b) o) →
      Part x s2 H body noLabels
        { s with loops := ⟨id, top, topStack, label, bottomStack⟩ :: s.loops } →
      Part x s2 H (do
        enterLoop id top topStack label bottomStack
        body
        let b ← exitLoop
        k b) o s
  | mono {α : Type} {H H' : List Nat} {m : Gen α} {o : α → List Nat} {s : GenState} :
      (∀ l ∈ H, l ∈ H') → Part x s2 H m o s → Part x s2 H' m o s

/-- All chains of loops end. -/
def Ended (R : Nat → Prop) (s : GenState) : Prop := ∀ loop ∈ s.loops, loop.Off R s.fixups

theorem Safe.ended (h : Safe R s s') (he : Ended R s) : Ended R s' := by
  intro loop' hmem
  obtain ⟨i, hi⟩ := List.getElem?_of_mem hmem
  obtain ⟨hlt, -⟩ := List.getElem?_eq_some_iff.mp hi
  rw [h.count] at hlt
  have hget := List.getElem?_eq_getElem hlt
  obtain ⟨loop'', hi', hoff, -⟩ := h.loops i _ hget
  rw [hi] at hi'
  cases hi'
  exact hoff (he _ (List.getElem_mem hlt))

/-- Nothing is excluded. -/
def nowhere (_ : Nat) : Prop := False

/-- The state in which a part begins, and what is done after it. -/
structure Rest (s s2 s4 s' : GenState) (out : List Nat) : Prop where
  tidy : s2.Tidy
  ended : Ended nowhere s2
  grown : Grown s s2
  tidy' : s'.Tidy
  grown' : Grown s4 s'
  safe : ∀ R : Nat → Prop, (∀ r, R r → s2.fixups.length ≤ r ∧ r < s4.fixups.length) →
    Ended R s4 → (∀ r, R r → s'.fixups[r]? = s4.fixups[r]?) ∧ Ended R s' ∧
      ∀ l ∈ out, Links.Off (nextLabel s'.fixups) R l

/-- A chain that is there has nothing newer. -/
theorem off_newer {l : Nat} (h : Links.Off (nextLabel s.fixups) nowhere l)
    (hR : ∀ r, R r → s.fixups.length ≤ r) : Links.Off (nextLabel s.fixups) R l :=
  Off.new h fun r hr => by
    rw [nextLabel, List.getElem?_eq_none (hR r hr)]
    rfl

/-- One function after the part. -/
theorem Rest.then {out : List Nat} {m : Gen α} {o : α → List Nat} {a : α} {s'' : GenState}
    (h : Rest s s2 s4 s' out) (hx : Grown s2 s4)
    (hH : ∀ l ∈ H, Links.Off (nextLabel s.fixups) nowhere l)
    (hm : Does (out ++ H) m o) (hrun : m s' = some (a, s'')) : Rest s s2 s4 s'' (o a) := by
  have hdone := hm _ _ _ hrun h.tidy'
  refine ⟨h.tidy, h.ended, h.grown, hdone.tidy, h.grown'.trans hdone.grown, fun R hR hend => ?_⟩
  obtain ⟨hstays, hended, hout⟩ := h.safe R hR hend
  obtain ⟨hsafe, hout'⟩ := hdone.safe R
    (fun r hr => Nat.lt_of_lt_of_le (hR r hr).2 h.grown'.length) (by
      intro l hl
      rcases List.mem_append.mp hl with hl | hl
      · exact hout l hl
      · have hoff := off_newer (hH l hl) fun r hr => Nat.le_trans h.grown.length (hR r hr).1
        exact hoff.extends ((h.grown.trans hx).trans h.grown').next)
  exact ⟨fun r hr => (hsafe.stays r hr).trans (hstays r hr), hsafe.ended hended, hout'⟩

/-- The end of a loop around the part. -/
theorem Rest.exit {new : Loop} {s3 : GenState} {b : Option Nat}
    (h : Rest { s with loops := new :: s.loops } s2 s4 s' []) (hexit : exitLoop s' = some (b, s3)) :
    Rest s s2 s4 s3 b.toList := by
  rw [exitLoop] at hexit
  split at hexit
  next loop rest hloops =>
    cases hexit
    refine ⟨h.tidy, h.ended, ⟨h.grown.bytes, h.grown.fixups, h.grown.later⟩, ?_,
      ⟨h.grown'.bytes, h.grown'.fixups, h.grown'.later⟩, fun R hR hend => ?_⟩
    · exact ⟨h.tidy'.sorted, h.tidy'.placed, h.tidy'.counted, h.tidy'.stackCount, fun loop' hmem =>
        h.tidy'.tops loop' (hloops ▸ List.mem_cons_of_mem _ hmem)⟩
    · obtain ⟨hstays, hended, -⟩ := h.safe R hR hend
      refine ⟨hstays, fun loop' hmem => hended loop' (hloops ▸ List.mem_cons_of_mem _ hmem), ?_⟩
      intro l hl
      exact hended loop (hloops ▸ List.mem_cons_self) l (Option.mem_toList.mp hl)
  next => cases hexit

/-- What is done before and after a part. -/
theorem Part.rest {m : Gen α} {o : α → List Nat} {a : α} {u : Unit} (h : Part x s2 H m o s)
    (hx : ∀ H, Does H x noLabels) (hrunx : x s2 = some (u, s4)) (hrun : m s = some (a, s'))
    (ht : s.Tidy) (hend : Ended nowhere s)
    (hH : ∀ l ∈ H, Links.Off (nextLabel s.fixups) nowhere l) : Rest s s2 s4 s' (o a) := by
  induction h generalizing s' with
  | here =>
      rw [hrunx] at hrun
      cases hrun
      have hdone := hx [] _ _ _ hrunx ht
      exact ⟨ht, hend, Grown.refl _, hdone.tidy, Grown.refl _, fun R hR hend' =>
        ⟨fun _ _ => rfl, hend', nofun⟩⟩
  | after hm hfirst hpart ih =>
      obtain ⟨b', s1', hm', hrun⟩ := bind_eq_some hrun
      rw [hfirst] at hm'
      cases hm'
      have hdone := hm _ _ _ hfirst ht
      obtain ⟨hsafe, hout⟩ := hdone.safe nowhere nofun hH
      have hrest := ih hrun hdone.tidy (hsafe.ended hend) (by
        intro l hl
        rcases List.mem_append.mp hl with hl | hl
        · exact hout l hl
        · exact (hH l hl).extends hdone.grown.next)
      exact { hrest with grown := hdone.grown.trans hrest.grown }
  | first hf hpart ih =>
      obtain ⟨b, s1, hm, hrun⟩ := bind_eq_some hrun
      have hrest := ih hm ht hend hH
      exact hrest.then (hx [] _ _ _ hrunx hrest.tidy).grown hH (hf b) hrun
  | @loop _ H id topStack bottomStack top label body _ _ s hlabel htop hk hpart ih =>
      obtain ⟨_, s1, henter, hrun⟩ := bind_eq_some hrun
      cases henter
      obtain ⟨_, s2', hbody, hrun⟩ := bind_eq_some hrun
      obtain ⟨b, s3, hexit, hrun⟩ := bind_eq_some hrun
      have hrest := ih hbody (ht.enter (Loop.mk id top topStack label bottomStack) htop)
        (fun loop hmem => by
          rcases List.mem_cons.mp hmem with rfl | hmem
          · exact fun n hn => hH n (hlabel n hn)
          · exact hend loop hmem) hH
      exact (hrest.exit hexit).then (hx [] _ _ _ hrunx hrest.tidy).grown hH (hk b) hrun
  | mono hsub hpart ih =>
      exact ih hrun ht hend fun l hl => hH l (hsub l hl)

/-! ## The parts of a program -/

/-- An expression or a statement. -/
inductive Piece where
  | expr (e : Expr)
  | stmt (stmt : Stmt)

/-- What is generated for it. -/
def Piece.gen : Piece → Gen Unit
  | .expr e => generateExpr e
  | .stmt t => generateStmt t

theorem Piece.does : ∀ (p : Piece) (H : List Nat), Does H p.gen noLabels
  | .expr e, _ => does_generateExpr e
  | .stmt t, _ => does_generateStmt t

mutual

/-- The expressions that are generated when an expression is, itself the first. -/
def Expr.parts : Expr → List Piece
  | .and lhs rhs => .expr (.and lhs rhs) :: (lhs.parts ++ rhs.parts)
  | .or lhs rhs => .expr (.or lhs rhs) :: (lhs.parts ++ rhs.parts)
  | .negate e => .expr (.negate e) :: e.parts
  | .not e => .expr (.not e) :: e.parts
  | .binary kind lhs rhs => .expr (.binary kind lhs rhs) :: (lhs.parts ++ rhs.parts)
  | .prop lhs rhs => .expr (.prop lhs rhs) :: (lhs.parts ++ rhs.parts)
  | .index lhs rhs => .expr (.index lhs rhs) :: (lhs.parts ++ rhs.parts)
  | .range base from' to' => .expr (.range base from' to') :: (base.parts ++ (from'.parts ++ to'.parts))
  | .list args => .expr (.list args) :: args.parts
  | .call func args => .expr (.call func args) :: args.parts
  | .verb obj verb args => .expr (.verb obj verb args) :: (obj.parts ++ (verb.parts ++ args.parts))
  | .cond c e e' => .expr (.cond c e e') :: (c.parts ++ (e.parts ++ e'.parts))
  | .asgn (.scatter sc) rhs => .expr (.asgn (.scatter sc) rhs) :: (rhs.parts ++ sc.parts)
  | .asgn lhs rhs => .expr (.asgn lhs rhs) :: (lhs.targetParts ++ rhs.parts)
  | .catch e codes except => .expr (.catch e codes except) :: (codes.parts ++ (e.parts ++ exceptParts except))
  | .var v => [.expr (.var v)]
  | .id i => [.expr (.id i)]
  | .length => [.expr .length]
  | .scatter _ => []

/-- In a handler. -/
def exceptParts : Option Expr → List Piece
  | some e => e.parts
  | none => []

/-- In the target of an assignment. -/
def Expr.targetParts : Expr → List Piece
  | .range base from' to' => base.targetParts ++ (from'.parts ++ to'.parts)
  | .index lhs rhs => lhs.targetParts ++ rhs.parts
  | .prop lhs rhs => lhs.parts ++ rhs.parts
  | _ => []

def ArgList.parts : ArgList → List Piece
  | .nil => []
  | .cons _ e next => e.parts ++ next.parts

/-- In the defaults of a pattern. -/
def Scatter.parts : Scatter → List Piece
  | .nil => []
  | .cons .optional _ (some e) next => e.parts ++ next.parts
  | .cons _ _ _ next => next.parts

end

mutual

/-- The expressions and statements that are generated into the same vector. -/
def Stmt.parts : Stmt → List Piece
  | .cond arms otherwise => .stmt (.cond arms otherwise) :: (arms.parts ++ otherwise.parts)
  | .list id e body => .stmt (.list id e body) :: (e.parts ++ body.parts)
  | .range id from' to' body => .stmt (.range id from' to' body) :: (from'.parts ++ (to'.parts ++ body.parts))
  | .while id e body => .stmt (.while id e body) :: (e.parts ++ body.parts)
  | .fork id time body => .stmt (.fork id time body) :: time.parts
  | .expr e => .stmt (.expr e) :: e.parts
  | .return e => .stmt (.return e) :: exceptParts e
  | .tryExcept body excepts => .stmt (.tryExcept body excepts) :: (body.parts ++ (excepts.codeParts ++ excepts.parts))
  | .tryFinally body handler => .stmt (.tryFinally body handler) :: (body.parts ++ handler.parts)
  | .break exit => [.stmt (.break exit)]
  | .continue exit => [.stmt (.continue exit)]

def StmtList.parts : StmtList → List Piece
  | .nil => []
  | .cons stmt next => stmt.parts ++ next.parts

def CondArm.parts : CondArm → List Piece
  | .nil => []
  | .cons condition stmts next => condition.parts ++ (stmts.parts ++ next.parts)

/-- In the codes of handlers. -/
def ExceptArm.codeParts : ExceptArm → List Piece
  | .nil => []
  | .cons _ codes _ next => codes.parts ++ next.codeParts

def ExceptArm.parts : ExceptArm → List Piece
  | .nil => []
  | .cons _ _ stmts next => stmts.parts ++ next.parts

end

/-! ### Each is a part -/

/-- Whenever `m` is run, `p` is generated as a part of it. -/
def HasPart (p : Piece) (H : List Nat) (m : Gen α) (o : α → List Nat) : Prop :=
  ∀ s a s', m s = some (a, s') →
    ∃ s2 s4, p.gen s2 = some ((), s4) ∧ Part p.gen s2 H m o s

section

variable {p : Piece} {m : Gen β} {f : β → Gen α} {o : β → List Nat} {o' : α → List Nat}

theorem HasPart.here : HasPart p H p.gen noLabels := fun s _ s' hrun => ⟨s, s', hrun, .here⟩

theorem HasPart.expr {e : Expr} : HasPart (.expr e) H (generateExpr e) noLabels :=
  HasPart.here (p := .expr e)

theorem HasPart.stmt {t : Stmt} : HasPart (.stmt t) H (generateStmt t) noLabels :=
  HasPart.here (p := .stmt t)

theorem HasPart.after (hm : Does H m o) (h : ∀ b, HasPart p (o b ++ H) (f b) o') :
    HasPart p H (m >>= f) o' := by
  intro s a s' hrun
  obtain ⟨b, s1, hm', hrun⟩ := bind_eq_some hrun
  obtain ⟨s2, s4, hgen, hpart⟩ := h b s1 a s' hrun
  exact ⟨s2, s4, hgen, .after hm hm' hpart⟩

/-- After something that gives no labels. -/
theorem HasPart.next (hm : Does H m noLabels) (h : ∀ b, HasPart p H (f b) o') :
    HasPart p H (m >>= f) o' := .after hm h

theorem HasPart.first (h : HasPart p H m o) (hf : ∀ b, Does (o b ++ H) (f b) o') :
    HasPart p H (m >>= f) o' := by
  intro s a s' hrun
  obtain ⟨b, s1, hm', -⟩ := bind_eq_some hrun
  obtain ⟨s2, s4, hgen, hpart⟩ := h s b s1 hm'
  exact ⟨s2, s4, hgen, .first hf hpart⟩

theorem HasPart.mono {H' : List Nat} {m : Gen α} (h : HasPart p H m o') (hsub : ∀ l ∈ H, l ∈ H') :
    HasPart p H' m o' := by
  intro s a s' hrun
  obtain ⟨s2, s4, hgen, hpart⟩ := h s a s' hrun
  exact ⟨s2, s4, hgen, .mono hsub hpart⟩

theorem HasPart.capture {f : Fixup → Gen α} (h : ∀ top, top.kind = .label → HasPart p H (f top) o') :
    HasPart p H (captureLabel >>= f) o' := by
  intro s a s' hrun
  obtain ⟨top, s1, htop, hrun⟩ := bind_eq_some hrun
  have hkind : top.kind = .label := by
    cases htop
    rfl
  obtain ⟨s2, s4, hgen, hpart⟩ := h top hkind s1 a s' hrun
  exact ⟨s2, s4, hgen, .after silent_captureLabel.does htop hpart⟩

theorem HasPart.loop {id topStack bottomStack : Int} {top : Fixup} {label : Option Nat}
    {body : Gen Unit} {k : Option Nat → Gen α} (hlabel : ∀ n, label = some n → n ∈ H)
    (htop : top.kind = .label) (hbody : HasPart p H body noLabels)
    (hk : ∀ b : Option Nat, Does (b.toList ++ H) (k b) o') :
    HasPart p H (do
      enterLoop id top topStack label bottomStack
      body
      let b ← exitLoop
      k b) o' := by
  intro s a s' hrun
  obtain ⟨_, s1, henter, hrun⟩ := bind_eq_some hrun
  cases henter
  obtain ⟨_, s2, hrun2, -⟩ := bind_eq_some hrun
  obtain ⟨s2, s4, hgen, hpart⟩ := hbody _ _ _ hrun2
  exact ⟨s2, s4, hgen, .loop hlabel htop hk hpart⟩

end

/-! ### All parts of a function

    A function that does its labels right is followed through once, and each of the parts of
    its parts is found on the way. -/

/-- `m` does its labels right, and whenever it is run all of `ps` are generated as parts of it. -/
structure HasParts (ps : List Piece) (H : List Nat) (m : Gen α) (o : α → List Nat) : Prop where
  does : Does H m o
  has : ∀ p ∈ ps, HasPart p H m o

section

variable {ps qs : List Piece} {m : Gen β} {f : β → Gen α} {o : β → List Nat} {o' : α → List Nat}

/-- Nothing of the program is in it. -/
theorem HasParts.silent (hm : Does H m o) : HasParts [] H m o := ⟨hm, nofun⟩

/-- The parts of two functions, one after the other. -/
theorem HasParts.bind (hm : HasParts ps H m o) (hf : ∀ b, HasParts qs (o b ++ H) (f b) o') :
    HasParts (ps ++ qs) H (m >>= f) o' := by
  refine ⟨hm.does.bind fun b => (hf b).does, fun p hp => ?_⟩
  rcases List.mem_append.mp hp with hp | hp
  · exact (hm.has p hp).first fun b => (hf b).does
  · exact .after hm.does fun b => (hf b).has p hp

theorem HasParts.seq (hm : HasParts ps H m noLabels) (hf : ∀ b, HasParts qs H (f b) o') :
    HasParts (ps ++ qs) H (m >>= f) o' := hm.bind hf

/-- All parts are in the second. -/
theorem HasParts.after (hm : Does H m o) (hf : ∀ b, HasParts qs (o b ++ H) (f b) o') :
    HasParts qs H (m >>= f) o' := (HasParts.silent hm).bind hf

/-- After something that gives no labels. -/
theorem HasParts.next (hm : Does H m noLabels) (hf : ∀ b, HasParts qs H (f b) o') :
    HasParts qs H (m >>= f) o' := .after hm hf

/-- All parts are in the first. -/
theorem HasParts.first (hm : HasParts ps H m o) (hf : ∀ b, Does (o b ++ H) (f b) o') :
    HasParts ps H (m >>= f) o' :=
  ⟨hm.does.bind hf, fun p hp => (hm.has p hp).first hf⟩

theorem HasParts.mono {H' : List Nat} (hm : HasParts ps H m o) (hsub : ∀ l ∈ H, l ∈ H') :
    HasParts ps H' m o :=
  ⟨hm.does.mono hsub, fun p hp => (hm.has p hp).mono hsub⟩

/-- The order of the parts does not matter. -/
theorem HasParts.of_subset (hm : HasParts qs H m o) (hsub : ps ⊆ qs) : HasParts ps H m o :=
  ⟨hm.does, fun p hp => hm.has p (hsub hp)⟩

theorem HasParts.capture {f : Fixup → Gen α}
    (hf : ∀ top, top.kind = .label → HasParts ps H (f top) o') :
    HasParts ps H (captureLabel >>= f) o' :=
  ⟨.capture fun top htop => (hf top htop).does, fun p hp => .capture fun top htop => (hf top htop).has p hp⟩

theorem HasParts.loop {id topStack bottomStack : Int} {top : Fixup} {label : Option Nat}
    {body : Gen Unit} {k : Option Nat → Gen α} (hlabel : ∀ n, label = some n → n ∈ H)
    (htop : top.kind = .label) (hbody : HasParts ps H body noLabels)
    (hk : ∀ b : Option Nat, Does (b.toList ++ H) (k b) o') :
    HasParts ps H (do
      enterLoop id top topStack label bottomStack
      body
      let b ← exitLoop
      k b) o' :=
  ⟨.loop hlabel htop hbody.does hk, fun p hp => .loop hlabel htop (hbody.has p hp) hk⟩

/-- An expression is the first of its own parts. -/
theorem HasParts.expr {e : Expr} (h : HasParts ps H (generateExpr e) noLabels) :
    HasParts (.expr e :: ps) H (generateExpr e) noLabels :=
  ⟨h.does, List.forall_mem_cons.mpr ⟨.expr, h.has⟩⟩

theorem HasParts.stmt {t : Stmt} (h : HasParts ps H (generateStmt t) noLabels) :
    HasParts (.stmt t :: ps) H (generateStmt t) noLabels :=
  ⟨h.does, List.forall_mem_cons.mpr ⟨.stmt, h.has⟩⟩

end

/-- An assignment to anything but a pattern. -/
theorem asgn_hasParts {e rhs : Expr} {ps qs : List Piece} (hne : ∀ sc, e ≠ .scatter sc)
    (htarget : HasParts ps H (pushLvalue e false) noLabels)
    (hrhs : HasParts qs H (generateExpr rhs) noLabels) :
    HasParts (.expr (.asgn e rhs) :: (ps ++ qs)) H (generateExpr (.asgn e rhs)) noLabels := by
  refine .expr ?_
  rw [generateExpr_asgn hne]
  exact htarget.bind fun _ => hrhs.first fun _ =>
    (does_whenIndexed e (does_emitOp _)).seq fun _ => (does_putLvalue e).seq fun _ =>
      does_whenIndexed e ((does_emitOp _).seq fun _ => does_emitOp _)

/-- The codes of a handler are generated as a list, when there are any. -/
theorem codes_hasParts {codes : ArgList}
    (h : HasParts codes.parts H (generateArgList codes true) noLabels) :
    HasParts codes.parts H (generateCodes codes) noLabels := by
  cases codes with
  | nil => exact .silent (does_generateCodes .nil)
  | cons kind e next => exact h

mutual

theorem Expr.hasParts : ∀ (e : Expr) {H : List Nat}, HasParts e.parts H (generateExpr e) noLabels
  | .and lhs rhs, H | .or lhs rhs, H =>
      .expr <| lhs.hasParts.seq fun _ => .next (does_emitOp _) fun _ => .after does_addLabel fun _ =>
        .next (does_popStack 1) fun _ => rhs.hasParts.first fun _ => does_define (by simp)
  | .negate e, H | .not e, H => .expr <| e.hasParts.first fun _ => does_emitOp _
  | .binary kind lhs rhs, H =>
      .expr <| lhs.hasParts.seq fun _ => rhs.hasParts.first fun _ =>
        kind.does_emit.seq fun _ => does_popStack 1
  | .prop lhs rhs, H =>
      .expr <| lhs.hasParts.seq fun _ => rhs.hasParts.first fun _ =>
        (does_emitOp _).seq fun _ => does_popStack 1
  | .index lhs rhs, H =>
      .expr <| lhs.hasParts.seq fun _ => .next does_saveStackTop fun _ => rhs.hasParts.first fun _ =>
        (does_restoreStackTop _).seq fun _ => (does_emitOp _).seq fun _ => does_popStack 1
  | .range base from' to', H =>
      .expr <| base.hasParts.seq fun _ => .next does_saveStackTop fun _ =>
        from'.hasParts.seq fun _ => to'.hasParts.first fun _ =>
          (does_restoreStackTop _).seq fun _ => (does_emitOp _).seq fun _ => does_popStack 2
  | .list args, H => .expr (args.hasParts true)
  | .call _ args, H =>
      .expr <| (args.hasParts true).first fun _ => (does_emitOp _).seq fun _ => does_emitByte _
  | .verb obj verb args, H =>
      .expr <| obj.hasParts.seq fun _ => verb.hasParts.seq fun _ => (args.hasParts true).first fun _ =>
        (does_emitOp _).seq fun _ => does_popStack 2
  | .cond e e' e'', H =>
      .expr <| e.hasParts.seq fun _ => .next (does_emitOp _) fun _ => .after does_addLabel fun _ =>
        .next (does_popStack 1) fun _ => e'.hasParts.seq fun _ => .next (does_emitOp _) fun _ =>
          .after does_addLabel fun _ => .next (does_popStack 1) fun _ =>
            .next (does_define (by simp)) fun _ => e''.hasParts.first fun _ => does_define (by simp)
  | .asgn (.scatter sc) rhs, H =>
      .expr <| rhs.hasParts.seq fun _ => .after (does_emitScatter sc) fun labels =>
        .after does_addLabel fun _ => ((sc.hasParts labels).mono fun _ hl =>
          List.mem_append_right _ (List.mem_append_left _ hl)).first fun _ => does_define (by simp)
  | .asgn (.id i) rhs, H => asgn_hasParts nofun (Expr.hasTargets (.id i) false) rhs.hasParts
  | .asgn (.prop lhs i) rhs, H => asgn_hasParts nofun (Expr.hasTargets (.prop lhs i) false) rhs.hasParts
  | .asgn (.index lhs i) rhs, H => asgn_hasParts nofun (Expr.hasTargets (.index lhs i) false) rhs.hasParts
  | .asgn (.range base from' to') rhs, H =>
      asgn_hasParts nofun (Expr.hasTargets (.range base from' to') false) rhs.hasParts
  | .asgn (.var _) rhs, H | .asgn (.and _ _) rhs, H | .asgn (.or _ _) rhs, H
  | .asgn (.negate _) rhs, H | .asgn (.not _) rhs, H | .asgn (.binary _ _ _) rhs, H
  | .asgn .length rhs, H | .asgn (.list _) rhs, H | .asgn (.call _ _) rhs, H
  | .asgn (.verb _ _ _) rhs, H | .asgn (.cond _ _ _) rhs, H | .asgn (.asgn _ _) rhs, H
  | .asgn (.catch _ _ _) rhs, H =>
      asgn_hasParts nofun (.silent (does_pushLvalue _ false)) rhs.hasParts
  | .catch e codes except, H =>
      .expr <| (codes_hasParts (codes.hasParts true)).seq fun _ => .next (does_emitExtended _) fun _ =>
        .after does_addLabel fun _ => .next (does_pushStack 1) fun _ => .next (does_emitExtended _) fun _ =>
          .next (does_pushStack 1) fun _ => e.hasParts.seq fun _ => .next (does_emitExtended _) fun _ =>
            .after does_addLabel fun _ => .next (does_popStack 3) fun _ => .next (does_define (by simp)) fun _ =>
              (except_hasParts except).first fun _ => does_define (by simp)
  | .var v, H => .expr (.silent (does_generateExpr (.var v)))
  | .id i, H => .expr (.silent (does_generateExpr (.id i)))
  | .length, H => .expr (.silent (does_generateExpr .length))
  | .scatter sc, H => .silent (does_generateExpr (.scatter sc))

theorem except_hasParts : ∀ (except : Option Expr) {H : List Nat},
    HasParts (exceptParts except) H (generateExcept except) noLabels
  | some e, _ => .next (does_emitOp _) fun _ => .next (does_popStack 1) fun _ => e.hasParts
  | none, _ => .silent (does_generateExcept none)

theorem Expr.hasTargets : ∀ (e : Expr) (above : Bool) {H : List Nat},
    HasParts e.targetParts H (pushLvalue e above) noLabels
  | .range base from' to', _, _ =>
      (base.hasTargets true).seq fun _ => .next does_saveStackTop fun _ => from'.hasParts.seq fun _ =>
        to'.hasParts.first fun _ => does_restoreStackTop _
  | .index lhs rhs, _, _ =>
      (lhs.hasTargets true).seq fun _ => .next does_saveStackTop fun _ => rhs.hasParts.first fun _ =>
        (does_restoreStackTop _).seq fun _ =>
          .ite ((does_emitOp _).seq fun _ => does_pushStack 1) (.pure nofun)
  | .prop lhs rhs, _, _ =>
      lhs.hasParts.seq fun _ => rhs.hasParts.first fun _ =>
        .ite ((does_emitOp _).seq fun _ => does_pushStack 1) (.pure nofun)
  | .id _, above, _ | .var _, above, _ | .and _ _, above, _ | .or _ _, above, _
  | .negate _, above, _ | .not _, above, _ | .binary _ _ _, above, _ | .length, above, _
  | .list _, above, _ | .call _ _, above, _ | .verb _ _ _, above, _ | .cond _ _ _, above, _
  | .asgn _ _, above, _ | .catch _ _ _, above, _ | .scatter _, above, _ =>
      .silent (does_pushLvalue _ above)

theorem ArgList.hasParts : ∀ (args : ArgList) (first : Bool) {H : List Nat},
    HasParts args.parts H (generateArgList args first) noLabels
  | .nil, first, _ => .silent (does_generateArgList .nil first)
  | .cons kind e next, first, _ =>
      e.hasParts.seq fun _ => .next (does_emitArg first kind) fun _ => .next (does_popStack _) fun _ =>
        next.hasParts false

theorem Scatter.hasParts : ∀ (sc : Scatter) (labels : List Nat),
    HasParts sc.parts labels (generateDefaults sc labels) noLabels
  | .nil, labels => .silent (does_generateDefaults .nil labels)
  | .cons .optional _ (some e) next, labels =>
      .next (does_defineLabel fun _ hn => List.mem_of_mem_head? hn) fun _ => e.hasParts.seq fun _ =>
        .next (does_emitVarOp _ _) fun _ => .next (does_emitOp _) fun _ => .next (does_popStack 1) fun _ =>
          (next.hasParts labels.tail).mono tail_sub
  | .cons .optional _ none next, labels | .cons .required _ _ next, labels
  | .cons .rest _ _ next, labels => next.hasParts labels

end

mutual

theorem Stmt.hasParts : ∀ (t : Stmt) {H : List Nat}, HasParts t.parts H (generateStmt t) noLabels
  | .cond arms otherwise, H =>
      .stmt <| ((arms.hasParts .if none).mono nofun).bind fun _ => otherwise.hasParts.first fun _ =>
        does_defineGiven _
  | .list id e body, H =>
      .stmt <| e.hasParts.seq fun _ => .next (does_emitByte _) fun _ => .next (does_pushStack 1) fun _ =>
        .capture fun _ htop => .next (does_emitOp _) fun _ => .next (does_addVarRef id) fun _ =>
          .after does_addLabel fun _ => .next does_curStackNow fun _ =>
            .loop (by simp) htop body.hasParts fun b => does_endLoop htop b (does_popStack 2)
  | .range id from' to' body, H =>
      .stmt <| from'.hasParts.seq fun _ => to'.hasParts.seq fun _ =>
        .capture fun _ htop => .next (does_emitOp _) fun _ => .next (does_addVarRef id) fun _ =>
          .after does_addLabel fun _ => .next does_curStackNow fun _ =>
            .loop (by simp) htop body.hasParts fun b => does_endLoop htop b (does_popStack 2)
  | .while id condition body, H =>
      .stmt <| .capture fun _ htop => condition.hasParts.seq fun _ => .next (does_emitWhile id) fun _ =>
        .after does_addLabel fun _ => .next (does_popStack 1) fun _ => .next does_curStackNow fun _ =>
          .loop (by simp) htop body.hasParts fun b => does_endWhile htop b
  | .fork id time body, H =>
      .stmt <| time.hasParts.first fun _ => (does_emitOp _).seq fun _ =>
        (does_forkVector (generateStmts body)).seq fun bc => (does_addFork bc).seq fun _ =>
          (does_whenId id does_addVarRef).seq fun _ => does_popStack 1
  | .expr e, H =>
      .stmt <| e.hasParts.first fun _ => (does_emitOp _).seq fun _ => does_popStack 1
  | .return (some e), H =>
      .stmt <| e.hasParts.first fun _ => (does_emitOp _).seq fun _ => does_popStack 1
  | .return none, H => .stmt (.silent (does_generateStmt (.return none)))
  | .tryExcept body excepts, H => by
      -- The codes of the handlers are generated first.
      have hall : HasParts (excepts.codeParts ++ (body.parts ++ excepts.parts)) H
          (generateStmt (.tryExcept body excepts)) noLabels :=
        excepts.hasCodes.bind fun labels => .next (does_emitExtended _) fun _ =>
          .next (does_emitByte _) fun _ => .next (does_pushStack 1) fun _ => body.hasParts.seq fun _ =>
            .next (does_emitExtended _) fun _ => .after does_addLabel fun l => .next (does_popStack _) fun _ =>
              ((excepts.hasParts labels (some l)).mono (mem_handlerLabels l)).first fun _ => does_defineGiven _
      exact .stmt (hall.of_subset (by simp))
  | .tryFinally body handler, H =>
      .stmt <| .next (does_emitExtended _) fun _ => .after does_addLabel fun _ => .next (does_pushStack 1) fun _ =>
        body.hasParts.seq fun _ => .next (does_emitExtended _) fun _ => .next (does_popStack 1) fun _ =>
          .next (does_define (by simp)) fun _ => .next (does_pushStack 2) fun _ => handler.hasParts.first fun _ =>
            (does_emitExtended _).seq fun _ => does_popStack 2
  | .break exit, H => .stmt (.silent (does_generateStmt (.break exit)))
  | .continue exit, H => .stmt (.silent (does_generateStmt (.continue exit)))

theorem StmtList.hasParts : ∀ (stmts : StmtList) {H : List Nat},
    HasParts stmts.parts H (generateStmts stmts) noLabels
  | .nil, _ => .silent (does_generateStmts .nil)
  | .cons stmt next, _ => stmt.hasParts.seq fun _ => next.hasParts

theorem CondArm.hasParts : ∀ (arms : CondArm) (op : Opcode) (b : Option Nat),
    HasParts arms.parts b.toList (generateArms arms op b) Option.toList
  | .nil, op, b => .silent (does_generateArms .nil op b)
  | .cons condition stmts next, op, b =>
      condition.hasParts.seq fun _ => .next (does_emitOp op) fun _ => .after does_addLabel fun l =>
        .next (does_popStack 1) fun _ => stmts.hasParts.seq fun _ => .next (does_emitOp _) fun _ =>
          .after (does_addLinkedLabel fun _ hn => List.mem_append_right _ (Option.mem_toList.mpr hn)) fun l' =>
            .next (does_define (by simp)) fun _ => (next.hasParts .eif (some l')).mono (by simp)

theorem ExceptArm.hasCodes : ∀ (excepts : ExceptArm) {H : List Nat},
    HasParts excepts.codeParts H (generateHandlerCodes excepts) id
  | .nil, _ => .silent (does_generateHandlerCodes .nil)
  | .cons _ codes _ next, _ =>
      (codes_hasParts (codes.hasParts true)).seq fun _ => .next (does_emitExtended _) fun _ =>
        .after does_addLabel fun _ => .next (does_pushStack 1) fun _ => next.hasCodes.first fun _ =>
          .pure mem_newLabels

theorem ExceptArm.hasParts : ∀ (excepts : ExceptArm) (labels : List Nat) (b : Option Nat),
    HasParts excepts.parts (labels ++ b.toList) (generateHandlers excepts labels b) Option.toList
  | .nil, labels, b => .silent (does_generateHandlers .nil labels b)
  | .cons id _ stmts next, labels, b =>
      .next (does_defineLabel fun _ hn => List.mem_append_left _ (List.mem_of_mem_head? hn)) fun _ =>
        .next (does_pushStack 1) fun _ => .next (does_whenId id (does_emitVarOp .put)) fun _ =>
          .next (does_emitOp _) fun _ => .next (does_popStack 1) fun _ => stmts.hasParts.seq fun _ =>
            .after ((does_jumpToEnd next b).mono fun _ hl => List.mem_append_right _ hl) fun b' =>
              (next.hasParts labels.tail b').mono mem_tailLabels

end

/-! ### In a vector -/

/-- What `stmt_to_code` emits for a vector. -/
def StmtList.code (stmts : StmtList) : Gen Unit := do
  generateStmts stmts
  emitOp .done

/-- In the vector of `stmts`, `p` is generated from `s2` to `s4`. -/
structure Occurs (p : Piece) (stmts : StmtList) (gstate : GState) (s2 s4 : GenState) : Prop where
  part : Part p.gen s2 [] stmts.code noLabels (initState gstate)
  gen : p.gen s2 = some ((), s4)

theorem initState_tidy (gstate : GState) : (initState gstate).Tidy where
  sorted := List.Pairwise.nil
  placed := nofun
  counted kind _ := by cases kind <;> rfl
  stackCount := rfl
  tops := nofun

/-- Each part of a program occurs in its vector. -/
theorem occurs_of_mem {p : Piece} {stmts : StmtList} {gstate : GState} {fin : GenState}
    (hp : p ∈ stmts.parts) (hrun : stmts.code (initState gstate) = some ((), fin)) :
    ∃ s2 s4, Occurs p stmts gstate s2 s4 := by
  have hparts : HasParts stmts.parts [] stmts.code noLabels := stmts.hasParts.first fun _ => does_emitOp _
  have hpart := hparts.has p hp
  obtain ⟨s2, s4, hgen, hpart⟩ := hpart _ _ _ hrun
  exact ⟨s2, s4, hpart, hgen⟩

/-- What is done before and after a part of a vector. -/
theorem Occurs.rest {p : Piece} {stmts : StmtList} {gstate : GState} {fin : GenState}
    (h : Occurs p stmts gstate s2 s4) (hrun : stmts.code (initState gstate) = some ((), fin)) :
    Rest (initState gstate) s2 s4 fin [] :=
  h.part.rest p.does h.gen hrun (initState_tidy gstate) nofun nofun

/-- A test that the operands of the vector of `stmts` fit. -/
def StmtList.operandsFit (stmts : StmtList) (gstate : GState) : Bool :=
  match stmts.code (initState gstate) with
  | some (_, fin) =>
      match finishVector fin with
      | some bc =>
          bc.numbytesStack = 1 ∧
            fin.fixups.all fun f => decide (bc.operandValue f < 256 ^ bc.operandSize f.kind)
      | none => false
  | none => false

theorem finished_of_fit {stmts : StmtList} {gstate : GState} (h : stmts.operandsFit gstate = true) :
    ∃ fin bc, stmts.code (initState gstate) = some ((), fin) ∧ Finished fin bc := by
  unfold StmtList.operandsFit at h
  split at h
  next u fin hrun =>
    split at h
    next bc hfinish =>
      obtain ⟨hstacks, hfits⟩ := of_decide_eq_true h
      have hdoes : Does [] stmts.code noLabels := (does_generateStmts stmts).seq fun _ => does_emitOp _
      refine ⟨fin, bc, hrun, (hdoes _ _ _ hrun (initState_tidy gstate)).tidy, hfinish, hstacks, ?_⟩
      intro f hf
      exact of_decide_eq_true (List.all_eq_true.mp hfits f hf)
    next => exact nomatch h
  next => exact nomatch h

end Waverous
