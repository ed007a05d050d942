import Waverous.TryRuns

/-! # Statements — `execute.c`

    From the code of a statement, the interpreter comes to where the statement ends: behind it, at a
    loop around it, out of the frame, or at what an exception finds. -/

namespace Waverous

open Machines
open ActivStack (Arm handles)

variable {W : Type}

/-! ## Loops around -/

section

variable {S : Setting W} {id : Int} {top pc' : Nat} {loops : List LoopPlace} {rts : List Var}

/-- In a loop that keeps cells of its own on the stack, or none. -/
theorem fits_cons (hloops : ∀ loop ∈ loops, loop.Fits rts.length) {J : List Var} {k : Int} (hk : (J.length : Int) = k)
    (htop : top < S.bc.vector.length) (hlt : pc' < S.bc.vector.length) :
    ∀ loop ∈ (⟨id, top, rts.length + k, pc', rts.length⟩ :: loops : List LoopPlace), loop.Fits (J ++ rts).length := by
  have hlen : (J ++ rts).length = J.length + rts.length := List.length_append
  have hsmall := S.small
  intro loop hloop
  rcases List.mem_cons.mp hloop with rfl | hloop
  · refine ⟨⟨?_, ?_, ?_⟩, ?_, ?_, ?_⟩ <;> dsimp only <;> omega
  · exact (hloops loop hloop).mono (by omega)

theorem fits_push (hloops : ∀ loop ∈ loops, loop.Fits rts.length) (rts' : List Var) (hle : rts.length ≤ rts'.length) :
    ∀ loop ∈ loops, loop.Fits rts'.length := fun loop hloop => (hloops loop hloop).mono hle

end

theorem cells_zero (rts : List Var) : Cells false none (-1) rts.length rts :=
  ⟨rfl, fun _ h => (by cases h), fun h => (by cases h)⟩

section

variable {S : Setting W} {fuel : Nat}

mutual

/-- The code of a statement does what the statement does. -/
theorem Stmt.Valid.runs {names : List Int} : ∀ {stmt : Stmt}, stmt.Valid names → stmt.Plain → ∀ {loops : List LoopPlace}
    {rts : List Var}, (∀ loop ∈ loops, loop.Fits rts.length) → ∀ pc',
    S.Ends fuel (stmt.stands S.bc S.lits loops rts.length) loops pc' rts (execStmt S.host fuel stmt)
  | .cond arms otherwise, .cond harms hotherwise, hp, loops, rts, hloops, pc' => by
      rw [execStmt]
      intro n pc st temp hn hcode hlt hst
      exact harms.runs hp.1 hloops pc' (.inl rfl) (hotherwise.runs hp.2 hloops pc') (otherwise.forward hp.2 _ _) n pc st
        temp hn hcode hlt hst
  | .list i e body, .list he hbody, hp, loops, rts, hloops, pc' =>
      ends_list (he.runs hp.1 (cells_zero rts)) hloops hp.2 fun v count top p htop hlt =>
        hbody.runs hp.2 (fits_cons hloops (J := [.int count, v]) rfl htop hlt) p
  | .range i from' to' body, .range hfrom hto hbody, hp, loops, rts, hloops, pc' =>
      ends_range (hfrom.runs hp.1 (cells_zero rts)) (fun v => hto.runs hp.2.1 ((cells_zero rts).push v)) hloops hp.2.2
        fun v w top p htop hlt => hbody.runs hp.2.2 (fits_cons hloops (J := [w, v]) rfl htop hlt) p
  | .while i e body, .while he hbody, hp, loops, rts, hloops, pc' =>
      ends_while (he.runs hp.1 (cells_zero rts)) hloops hp.2 fun top p htop hlt =>
        hbody.runs hp.2 (fits_cons hloops (J := []) rfl htop hlt) p
  | .expr e, .expr he, hp, loops, rts, hloops, pc' => ends_expr (he.runs hp (cells_zero rts))
  | .return (some e), .return he, hp, loops, rts, hloops, pc' => ends_return (he.runs hp (cells_zero rts))
  | .return none, .return0, hp, loops, rts, hloops, pc' => ends_return0
  | .tryExcept body excepts, .tryExcept hbody hexcepts, hp, loops, rts, hloops, pc' =>
      ends_tryExcept hexcepts hp hloops (fun arms p => by
          have hends := hbody.runs hp.1 (fits_push hloops (handlerCells arms rts) (by
            rw [handlerCells_length]
            omega)) p
          rw [handlerCells_length] at hends
          exact hends)
        fun places arms handlers p hguards hstands => hexcepts.runs hp.2.2 hloops hguards hstands
  | .tryFinally body handler, .tryFinally hbody hhandler, hp, loops, rts, hloops, pc' =>
      ends_tryFinally hp hloops (fun place p =>
          hbody.runs hp.1 (fits_push hloops (.finally place :: rts) (Nat.le_succ _)) p)
        fun v w p => hhandler.runs hp.2 (fits_push hloops (v :: w :: rts) (Nat.le_add_right _ 2)) p
  | .break exit, .break _, hp, loops, rts, hloops, pc' => ends_break
  | .continue exit, .continue _, hp, loops, rts, hloops, pc' => ends_continue

theorem StmtList.Valid.runs {names : List Int} : ∀ {stmts : StmtList}, stmts.Valid names → stmts.Plain →
    ∀ {loops : List LoopPlace} {rts : List Var}, (∀ loop ∈ loops, loop.Fits rts.length) → ∀ pc',
    S.Ends fuel (stmts.stands S.bc S.lits loops rts.length) loops pc' rts (execStmts S.host fuel stmts)
  | .nil, .nil, _, _, _, _, _ => ends_nil
  | .cons _ next, .cons hstmt hnext, hp, _, _, hloops, pc' =>
      ends_cons (hstmt.runs hp.1 hloops) (hnext.runs hp.2 hloops pc') (next.forward hp.2 _ _)

theorem CondArm.Valid.runs {names : List Int} : ∀ {arms : CondArm}, arms.Valid names → arms.Plain →
    ∀ {loops : List LoopPlace} {rts : List Var}, (∀ loop ∈ loops, loop.Fits rts.length) → ∀ pc' {op : Opcode},
    op = .if ∨ op = .eif → ∀ {c2 : Stretch} {m2 : Eval W Flow}, S.Ends fuel c2 loops pc' rts m2 → c2.Forward →
    S.Ends fuel (.all [arms.stands S.bc S.lits op pc' loops rts.length, c2]) loops pc' rts (execArms S.host fuel arms m2)
  | .nil, .nil, _, _, _, _, _, _, _, _, _, hother, _ => ends_noArms hother
  | .cons _ stmts next, .cons he hstmts hnext, hp, _, rts, hloops, pc', _, hop, _, _, hother, hforward =>
      ends_arm hop (he.runs hp.1 (cells_zero rts)) (hstmts.runs hp.2.1 hloops) (stmts.forward hp.2.1 _ _)
        (hnext.runs hp.2.2 hloops pc' (.inr rfl) hother hforward)
        ((next.forward hp.2.2 _ _ _ _).cons (hforward.cons .nil))

theorem ExceptArm.Valid.runs {names : List Int} : ∀ {excepts : ExceptArm}, excepts.Valid names → excepts.Plain →
    ∀ {loops : List LoopPlace} {rts : List Var}, (∀ loop ∈ loops, loop.Fits rts.length) → ∀ {places : List Nat}
    {arms : List Arm} {handlers : List (Var × (Exception → Eval W Flow))} {p stop : Nat},
    Guards S.host fuel excepts places arms handlers → excepts.stands S.bc S.lits places stop loops rts.length p stop →
    stop < S.bc.vector.length → S.Catches fuel arms handlers loops stop rts
  | _, .nil, _, loops, rts, hloops, _, _, _, p, stop, .nil, _, _ => by
      intro code arm harm
      cases harm
  | .cons i codes stmts next, .cons _ hstmts hnext, hp, loops, rts, hloops, _, _, _, p, stop, .cons hv hguards,
      ⟨_, ⟨hhead, rfl⟩, p1, hput, p2, hpop, p3, hstmt, p4, hjump, _, hstand, rfl⟩, hlt => by
      have hp4 := Nat.lt_of_le_of_lt (next.forward hp.2.2 _ _ _ _ _ _ hstand) hlt
      cases hhead
      refine catches_cons ?_ (fun exc n st temp hexc hn hst => ?_) (hnext.runs hp.2.2 hloops hguards hstand hlt)
      · have := forward_varOp.when _ _ hput
        have := forward_byte _ _ hpop
        have := stmts.forward hp.2.1 _ _ _ _ hstmt
        have := forward_jump _ _ hjump
        have := S.small
        omega
      · exact carries_caught hexc hn hst ⟨p1, hput, p2, hpop, p3, hstmt, p4, hjump, rfl⟩ hp.2.1 hp4
          (fun hnil => by subst hnil; exact hstand.symm) (hstmts.runs hp.2.1 hloops)

end

end

end Waverous
