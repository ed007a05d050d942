import Waverous.ExprRuns

/-! # How statements end — `execute.c`

    A statement that ends normally comes to the place behind its code, with the stack as it was.  A
    `break`, a `continue` and a `return` unwind the stack to their loop or out of the frame; what has
    been left on it by the statements around is passed over. -/

namespace Waverous

open Machines
open ActivStack (popHandlers hasHandler codeOf handles Reason Arm armCells)

variable {W : Type} {α : Type}

/-! ## How a statement ends -/

/-- The value with which `FIN_EXIT` unwinds the stack. -/
def exitValue (depth place : Nat) : Var := .list [.int (Int32.ofNat depth), .int (Int32.ofNat place)]

/-- The interpreter is unwinding the stack to such a depth, to go on at a place. -/
def Exits (depth : Int) (place : Nat) (rts : List Var) (st : Store W) (c : Config W) : Prop :=
  depth < 256 ∧ ∃ p temp, c = .unwind .exit (exitValue depth.toNat place) (st.machine p rts temp)

/-- A state that stands for how a statement has ended. -/
def EndsAt (loops : List LoopPlace) (pc : Nat) (rts : List Var) : Flow → Store W → Config W → Prop
  | .normal, st, c => ∃ temp, c = .run (st.machine pc rts temp)
  | .return v, st, c => v.ordinary = true ∧ ∃ p temp, c = .unwind .return v (st.machine p rts temp)
  | .break exit, st, c => ∃ loop, leftLoop exit loops = some loop ∧ Exits loop.exitDepth loop.exit rts st c
  | .continue exit, st, c => ∃ loop, leftLoop exit loops = some loop ∧ Exits loop.topDepth loop.top rts st c

/-- The stack is not below a loop, and its places are small. -/
structure LoopPlace.Fits (loop : LoopPlace) (height : Nat) : Prop where
  top : 0 ≤ loop.topDepth ∧ loop.topDepth ≤ height ∧ loop.top < 2 ^ 31
  exit : 0 ≤ loop.exitDepth ∧ loop.exitDepth ≤ height ∧ loop.exit < 2 ^ 31

theorem LoopPlace.Fits.mono {loop : LoopPlace} {h h' : Nat} (hfits : loop.Fits h) (hle : h ≤ h') : loop.Fits h' := by
  obtain ⟨⟨h1, h2, h3⟩, h4, h5, h6⟩ := hfits
  exact ⟨⟨h1, by omega, h3⟩, h4, by omega, h6⟩

theorem leftLoop_mem {exit : Int} {loops : List LoopPlace} {loop : LoopPlace} (h : leftLoop exit loops = some loop) :
    loop ∈ loops := by
  unfold leftLoop at h
  split at h
  · exact List.mem_of_mem_head? h
  · exact List.mem_of_find?_eq_some h

/-- Cells that only an exception can stop at. -/
def Skipped (J : List Var) : Prop := ∀ why code value rest, why ≠ Reason.raise →
  popHandlers why code value 0 (J ++ rest) = popHandlers why code value 0 rest

theorem Unmarked.skipped {J : List Var} (h : Unmarked J) : Skipped J := fun why code value rest _ =>
  popHandlers_unmarked h why code value rest

theorem skipped_handlerCells {arms : List Arm} (harms : ∀ arm ∈ arms, arm.codes.ordinary = true) :
    Skipped (handlerCells arms []) := by
  intro why code value rest hwhy
  rw [handlerCells_append]
  exact popHandlers_over harms fun h => absurd h hwhy

/-! ## Leaving loops -/

section

variable {S : Setting W} {J rts : List Var} {st : Store W} {depth place pc : Nat} {value temp : Var}

theorem exit_depth (h : depth < 256) : (Int32.ofNat depth).toInt.toNat = depth := label_place (by omega)

theorem exit_place (h : place < 2 ^ 31) : (Int32.ofNat place).toUInt32.toNat = place := by
  rw [show (Int32.ofNat place).toUInt32.toNat = place % 2 ^ 32 from rfl]
  exact Nat.mod_eq_of_lt (by omega)

/-- What is above the depth is passed over. -/
theorem unwindExit_over {lab : Int32} (hJ : Skipped J) (hdepth : depth < 256) (hle : depth ≤ rts.length) (pc' : Nat) :
    unwindExit (Int32.ofNat depth) lab value (st.machine pc (J ++ rts) temp) =
      unwindExit (Int32.ofNat depth) lab value (st.machine pc' rts temp) := by
  have hlen : (J ++ rts).length - depth = J.length + (rts.length - depth) := by
    rw [List.length_append]
    omega
  unfold unwindExit
  dsimp only [Store.machine]
  rw [exit_depth hdepth, hlen,
    List.take_length_add_append, List.drop_length_add_append, hJ _ _ _ _ (fun h => by cases h)]

/-- The stack is at its depth but for what is passed over. -/
theorem unwindExit_here (hJ : Skipped J) (hdepth : rts.length < 256) (hplace : place < 2 ^ 31) :
    unwindExit (Int32.ofNat rts.length) (Int32.ofNat place) value (st.machine pc (J ++ rts) temp) =
      .run (st.machine place rts temp) := by
  rw [unwindExit_over hJ hdepth (Nat.le_refl _) pc]
  unfold unwindExit
  dsimp only [Store.machine]
  rw [exit_depth hdepth, Nat.sub_self, List.take_zero,
    List.drop_zero, exit_place hplace]
  rfl

theorem Exits.lower {depth : Int} {c : Config W} (h : Exits depth place (J ++ rts) st c) (hJ : Skipped J)
    (hle : 0 ≤ depth ∧ depth ≤ rts.length) : ∃ c', Exits depth place rts st c' ∧ Leads S.step 0 c c' := by
  obtain ⟨hdepth, p, temp, rfl⟩ := h
  refine ⟨_, ⟨hdepth, p, temp, rfl⟩, ?_⟩
  -- both unwind to the same state in their next step
  refine .join (v := unwindExit (Int32.ofNat depth.toNat) (Int32.ofNat place) (exitValue depth.toNat place)
    (st.machine p rts temp)) ?_ rfl
  rw [← unwindExit_over hJ (by omega) (by omega) p]
  rfl

/-- The loop goes on, or is over. -/
theorem Exits.here {depth : Int} {c : Config W} (h : Exits depth place (J ++ rts) st c) (hJ : Skipped J)
    (hlen : depth = rts.length) (hplace : place < 2 ^ 31) :
    ∃ temp, S.step c = some (.run (st.machine place rts temp)) := by
  obtain ⟨hdepth, p, temp, rfl⟩ := h
  refine ⟨temp, ?_⟩
  rw [hlen, Int.toNat_natCast, ← unwindExit_here hJ (by omega) hplace]
  rfl

/-- A statement that has not ended normally ends so around, too. -/
theorem EndsAt.lower {loops : List LoopPlace} {flow : Flow} {c : Config W} (h : EndsAt loops pc (J ++ rts) flow st c)
    (hflow : flow ≠ .normal) (hJ : Skipped J) (hloops : ∀ loop ∈ loops, loop.Fits rts.length) (pc' : Nat) :
    ∃ c', EndsAt loops pc' rts flow st c' ∧ Leads S.step 0 c c' := by
  cases flow with
  | normal => exact absurd rfl hflow
  | «return» v =>
      obtain ⟨hv, p, temp, rfl⟩ := h
      exact ⟨_, ⟨hv, p, temp, rfl⟩, unwind_over (fun h => by cases h) (hJ _ _ _ _ fun h => by cases h) p p temp⟩
  | «break» exit =>
      obtain ⟨loop, hloop, hexits⟩ := h
      have hfits := (hloops loop (leftLoop_mem hloop)).exit
      obtain ⟨c', hexits', hlead⟩ := hexits.lower (S := S) hJ ⟨hfits.1, hfits.2.1⟩
      exact ⟨c', ⟨loop, hloop, hexits'⟩, hlead⟩
  | «continue» exit =>
      obtain ⟨loop, hloop, hexits⟩ := h
      have hfits := (hloops loop (leftLoop_mem hloop)).top
      obtain ⟨c', hexits', hlead⟩ := hexits.lower (S := S) hJ ⟨hfits.1, hfits.2.1⟩
      exact ⟨c', ⟨loop, hloop, hexits'⟩, hlead⟩

end

/-! ## Statements -/

/-- From the code, which ends at `pc'`, the interpreter does what the statement `m` does, with at
    least so many steps as there is fuel if that has run out. -/
def Setting.Ends (S : Setting W) (fuel : Nat) (code : Stretch) (loops : List LoopPlace) (pc' : Nat) (rts : List Var)
    (m : Eval W Flow) : Prop :=
  ∀ n pc st temp, n ≤ fuel → code pc pc' → pc' < S.bc.vector.length → st.Sane S.sane →
    S.Carries n (.run (st.machine pc rts temp)) m st rts (EndsAt loops pc' rts)

section

variable {S : Setting W} {fuel n p pc pc' top : Nat} {loops : List LoopPlace} {rts : List Var} {e : Expr} {depth : Int}
  {st : Store W} {temp : Var} {c1 c2 : Stretch} {m1 m2 : Eval W Flow} {flow : Flow}

theorem EndsAt.anywhere {c : Config W} (h : EndsAt loops p rts flow st c) (hflow : flow ≠ .normal) (p' : Nat) :
    EndsAt loops p' rts flow st c := by
  cases flow with
  | normal => exact absurd rfl hflow
  | _ => exact h

theorem ends_expr (he : ∀ p, S.Gives (e.stands S.bc S.lits (-1) depth) p rts (evalExpr S.host e none)) :
    S.Ends fuel ((Stmt.expr e).stands S.bc S.lits loops depth) loops pc' rts (execStmt S.host fuel (.expr e)) := by
  rintro n pc st temp hn ⟨p1, hstands, _, hpop, rfl⟩ hlt hst
  have hp1 := Nat.lt_of_le_of_lt (forward_byte _ _ hpop) hlt
  rw [execStmt]
  refine .seq (he p1 n pc st temp hstands hp1 hst) ?_
  rintro v st' _ hst' ⟨hv, temp', rfl⟩
  exact .step (step_pop hpop) (.pure hst' ⟨temp', rfl⟩)

theorem ends_return (he : ∀ p, S.Gives (e.stands S.bc S.lits (-1) depth) p rts (evalExpr S.host e none)) :
    S.Ends fuel ((Stmt.return (some e)).stands S.bc S.lits loops depth) loops pc' rts
      (execStmt S.host fuel (.return (some e))) := by
  rintro n pc st temp hn ⟨p1, hstands, _, hop, rfl⟩ hlt hst
  have hp1 := Nat.lt_of_le_of_lt (forward_byte _ _ hop) hlt
  rw [execStmt]
  refine .seq (he p1 n pc st temp hstands hp1 hst) ?_
  rintro v st' _ hst' ⟨hv, temp', rfl⟩
  exact .step (step_op hop) (.pure hst' ⟨hv, _, temp', rfl⟩)

theorem ends_return0 : S.Ends fuel ((Stmt.return none).stands S.bc S.lits loops depth) loops pc' rts
    (execStmt S.host fuel (.return none)) := by
  intro n pc st temp hn hop hlt hst
  rw [execStmt]
  exact .step (step_op hop) (.pure hst ⟨rfl, pc', temp, rfl⟩)

/-- `EOP_EXIT` and `EOP_EXIT_ID`. -/
theorem step_exit {exit goal : Int} {place : Nat}
    (h : Stretch.all [exitCode S.bc exit, stackAt S.bc goal, labelAt S.bc place] pc pc') :
    ∃ c, S.step (.run (st.machine pc rts temp)) = some c ∧ Exits goal place rts st c := by
  obtain ⟨p1, hexit, p2, hstack, _, hlab, rfl⟩ := h
  -- the depth has been put into one byte
  have hgoal : goal < 256 := by
    obtain ⟨hread, -⟩ := hstack
    rw [S.cells] at hread
    obtain ⟨b, -, hb⟩ := Option.bind_eq_some_iff.mp hread
    have : b.toNat = goal.toNat := Option.some.inj hb
    have := b.toNat_lt
    omega
  have heop : eopExit S.bc (st.machine p1 rts temp) =
      some (.unwind .exit (exitValue goal.toNat place) (st.machine pc' rts temp)) := by
    rw [eopExit, machine_frame, readOperand_at hstack]
    show ((readOperand S.bc S.bc.numbytesLabel ⟨p2, rts, st.env⟩).bind _ : Option (Config W)) = _
    rw [readOperand_at hlab]
    rfl
  refine ⟨_, ?_, hgoal, pc', temp, rfl⟩
  unfold exitCode at hexit
  split at hexit
  · exact (step_extended hexit).trans heop
  · -- `EOP_EXIT_ID` skips the name of the loop
    obtain ⟨p0, hop, _, ⟨-, rfl⟩, rfl⟩ := hexit
    exact (step_extended hop).trans heop

theorem ends_break {exit : Int} : S.Ends fuel ((Stmt.break exit).stands S.bc S.lits loops depth) loops pc' rts
    (execStmt S.host fuel (.break exit)) := by
  rintro n pc st temp hn ⟨loop, hloop, hcode⟩ hlt hst
  obtain ⟨c, hstep, hexits⟩ := step_exit hcode
  rw [execStmt_break]
  exact .step hstep (.pure hst ⟨loop, hloop, hexits⟩)

theorem ends_continue {exit : Int} : S.Ends fuel ((Stmt.continue exit).stands S.bc S.lits loops depth) loops pc' rts
    (execStmt S.host fuel (.continue exit)) := by
  rintro n pc st temp hn ⟨loop, hloop, hcode⟩ hlt hst
  obtain ⟨c, hstep, hexits⟩ := step_exit hcode
  rw [execStmt]
  exact .step hstep (.pure hst ⟨loop, hloop, hexits⟩)

theorem ends_nil : S.Ends fuel (StmtList.nil.stands S.bc S.lits loops depth) loops pc' rts
    (execStmts S.host fuel .nil) := by
  rintro n pc st temp hn rfl hlt hst
  rw [execStmts_nil]
  exact .pure hst ⟨temp, rfl⟩

theorem ends_cons {stmt : Stmt} {next : StmtList}
    (hstmt : ∀ p, S.Ends fuel (stmt.stands S.bc S.lits loops depth) loops p rts (execStmt S.host fuel stmt))
    (hnext : S.Ends fuel (next.stands S.bc S.lits loops depth) loops pc' rts (execStmts S.host fuel next))
    (hforward : (next.stands S.bc S.lits loops depth).Forward) :
    S.Ends fuel ((StmtList.cons stmt next).stands S.bc S.lits loops depth) loops pc' rts
      (execStmts S.host fuel (.cons stmt next)) := by
  rintro n pc st temp hn ⟨p1, hstands, _, hrest, rfl⟩ hlt hst
  rw [execStmts]
  refine .seq (hstmt p1 n pc st temp hn hstands (Nat.lt_of_le_of_lt (hforward _ _ hrest) hlt) hst) ?_
  intro flow st' c hst' hends
  cases flow with
  | normal =>
      obtain ⟨temp', rfl⟩ := hends
      exact hnext n p1 st' temp' hn hrest hlt hst'
  | _ => exact .pure hst' (hends.anywhere (fun h => by cases h) pc')

/-! ## Conditions -/

theorem ends_noArms (hother : S.Ends fuel c2 loops pc' rts m2) {op : Opcode} {stop : Nat} :
    S.Ends fuel (.all [CondArm.nil.stands S.bc S.lits op stop loops depth, c2]) loops pc' rts
      (execArms S.host fuel .nil m2) := by
  rintro n pc st temp hn ⟨_, rfl, _, hc, rfl⟩ hlt hst
  rw [execArms_nil]
  exact hother n _ st temp hn hc hlt hst

/-- An arm, and those behind it. -/
theorem ends_arm {op : Opcode} (hop : op = .if ∨ op = .eif) {stmts : StmtList} {next : CondArm}
    (he : ∀ p, S.Gives (e.stands S.bc S.lits (-1) depth) p rts (evalExpr S.host e none))
    (hstmts : ∀ p, S.Ends fuel (stmts.stands S.bc S.lits loops depth) loops p rts (execStmts S.host fuel stmts))
    (hstmtsForward : (stmts.stands S.bc S.lits loops depth).Forward)
    (hnext : S.Ends fuel (.all [next.stands S.bc S.lits .eif pc' loops depth, c2]) loops pc' rts
      (execArms S.host fuel next m2))
    (hforward : (Stretch.all [next.stands S.bc S.lits .eif pc' loops depth, c2]).Forward) :
    S.Ends fuel (.all [(CondArm.cons e stmts next).stands S.bc S.lits op pc' loops depth, c2]) loops pc' rts
      (execArms S.host fuel (.cons e stmts next) m2) := by
  rintro n pc st temp hn ⟨q, ⟨otherwise, p1, hstands, p2, hat, p3, hlab, p4, hc, p5, hjump, p6, hlab', p7, ⟨rfl, rfl⟩,
    _, hn', rfl⟩, hlast⟩ hlt hst
  have hrest : Stretch.all [next.stands S.bc S.lits .eif pc' loops depth, c2] p7 pc' := ⟨_, hn', hlast⟩
  have hp7 : p7 < S.bc.vector.length := Nat.lt_of_le_of_lt (hforward _ _ hrest) hlt
  have hp4 : p4 < S.bc.vector.length := by
    have := hjump.2
    have := hlab'.2
    omega
  have hp1 : p1 < S.bc.vector.length := by
    have := hat.2
    have := hlab.2
    have := hstmtsForward _ _ hc
    omega
  rw [execArms]
  refine .seq (he p1 n pc st temp hstands hp1 hst) ?_
  rintro v st' _ hst' ⟨hv, temp', rfl⟩
  refine .step (step_test (hop.elim .inl fun h => .inr (.inl h)) ⟨p2, hat, p3, hlab, rfl⟩) ?_
  by_cases htrue : isTrue v = true
  · rw [if_pos htrue, if_pos htrue]
    refine (hstmts p4 n p3 st' temp' hn hc hp4 hst').onward ?_
    intro flow st2 c hends
    cases flow with
    | normal =>
        -- the jump over the other arms
        obtain ⟨temp2, rfl⟩ := hends
        exact ⟨_, ⟨temp2, rfl⟩, (Leads.one (step_jump ⟨p5, hjump, p7, hlab', rfl⟩)).weaken⟩
    | _ => exact ⟨c, hends.anywhere (fun h => by cases h) pc', .refl c⟩
  · rw [if_neg htrue, if_neg htrue]
    exact hnext n p7 st' temp' hn hrest hlt hst'

end

end Waverous
