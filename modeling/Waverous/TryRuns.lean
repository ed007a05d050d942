import Waverous.LoopRuns

/-! # `try` — `execute.c`

    The codes of the handlers are on the stack while the body is run.  The first handler that takes an
    exception goes on with the stack as it was before them; what is no exception passes over them, but
    not over a `finally`, whose handler goes on as the body has ended. -/

namespace Waverous

open Machines
open ActivStack (popHandlers hasHandler codeOf handles Reason Arm armCells)

variable {W : Type} {α : Type}

/-! ## Handlers -/

/-- A handler: the value of the exception is kept under its name. -/
def caught (host : Host W) (fuel : Nat) (id : Int) (stmts : StmtList) (exc : Exception) : Eval W Flow := do
  if 0 ≤ id then setVar id.toNat exc.value else pure ()
  execStmts host fuel stmts

/-- What lies on the stack for the handlers of a statement. -/
inductive Guards (host : Host W) (fuel : Nat) :
    ExceptArm → List Nat → List Arm → List (Var × (Exception → Eval W Flow)) → Prop where
  | nil : Guards host fuel .nil [] [] []
  | cons {id : Int} {codes : ArgList} {stmts : StmtList} {next : ExceptArm} {place : Nat} {places : List Nat}
      {arms : List Arm} {handlers : List (Var × (Exception → Eval W Flow))} {v : Var} : v.ordinary = true →
      Guards host fuel next places arms handlers → Guards host fuel (.cons id codes stmts next) (place :: places)
        (⟨v, Int32.ofNat place⟩ :: arms) ((v, caught host fuel id stmts) :: handlers)

section

variable {host : Host W} {fuel : Nat} {excepts : ExceptArm} {places : List Nat} {arms : List Arm}
  {handlers : List (Var × (Exception → Eval W Flow))} {code : Var}

theorem Guards.ordinary (h : Guards host fuel excepts places arms handlers) :
    ∀ arm ∈ arms, arm.codes.ordinary = true := by
  induction h with
  | nil =>
      intro arm harm
      cases harm
  | cons hv _ ih =>
      intro arm harm
      rcases List.mem_cons.mp harm with rfl | harm
      · exact hv
      · exact ih arm harm

theorem Guards.length (h : Guards host fuel excepts places arms handlers) :
    places.length = arms.length ∧ arms.length = excepts.count := by
  induction h with
  | nil => exact ⟨rfl, rfl⟩
  | cons _ _ ih =>
      obtain ⟨hplaces, harms⟩ := ih
      rw [List.length_cons, List.length_cons, ExceptArm.count, hplaces, harms]
      exact ⟨rfl, rfl⟩

/-- What no arm takes has no handler. -/
theorem Guards.none (h : Guards host fuel excepts places arms handlers)
    (hnone : arms.find? (fun arm => handles code arm.codes) = none) : firstHandler code handlers = none := by
  induction h with
  | nil => rfl
  | @cons _ _ _ _ _ _ _ _ v _ _ ih =>
      rw [List.find?_cons] at hnone
      rw [firstHandler]
      cases hcodes : handles code v with
      | true => simp only [hcodes, reduceCtorEq] at hnone
      | false =>
          simp only [hcodes] at hnone
          exact ih hnone

end

section

variable {S : Setting W} {fuel n p pc pc' stop : Nat} {loops : List LoopPlace} {rts : List Var} {excepts next : ExceptArm}
  {places : List Nat} {arms : List Arm} {handlers : List (Var × (Exception → Eval W Flow))} {code v : Var} {id : Int}
  {codes : ArgList} {stmts : StmtList} {st : Store W} {temp : Var}

/-- The codes are pushed, and with them the places of the handlers. -/
theorem does_codes {depth : Int} {place : Nat}
    (hcodes : ∀ p, S.Gives (codes.handlerStands S.bc S.lits (-1) depth) p rts (evalCodes S.host codes none))
    (hnext : ∀ v, S.Does (next.codesStand S.bc S.lits places (depth + 2)) pc' (.int (Int32.ofNat place) :: v :: rts)
      (.int (Int32.ofNat place) :: v :: rts) (execCodes S.host fuel next) fun handlers st c => ∃ arms temp,
        Guards S.host fuel next places arms handlers ∧
          c = .run (st.machine pc' ((armCells arms).reverse ++ .int (Int32.ofNat place) :: v :: rts) temp)) :
    S.Does ((ExceptArm.cons id codes stmts next).codesStand S.bc S.lits (place :: places) depth) pc' rts rts
      (execCodes S.host fuel (.cons id codes stmts next)) fun handlers st c => ∃ arms temp,
        Guards S.host fuel (.cons id codes stmts next) (place :: places) arms handlers ∧
          c = .run (st.machine pc' ((armCells arms).reverse ++ rts) temp) := by
  rw [execCodes]
  refine .eval hcodes (forward_extended.cons (forward_operand.cons ((forward_codes next places _).cons .nil)))
    (.refl rts) fun v hv => ?_
  rintro n pc st temp ⟨p1, hop, p2, hlab, _, hstand, rfl⟩ hlt hst
  have hJ : Unmarked [Var.int (Int32.ofNat place), v] := (Ordinary.cons rfl (.cons hv .nil)).unmarked
  refine .step (step_pushLabel ⟨p1, hop, p2, hlab, rfl⟩)
    (.bind (J := [.int (Int32.ofNat place), v]) (hnext v n p2 st temp hstand hlt hst) hJ ?_)
  rintro handlers st' _ hst' ⟨arms, temp', hguards, rfl⟩
  refine .pure hst' ⟨⟨v, Int32.ofNat place⟩ :: arms, temp', .cons hv hguards, ?_⟩
  show _ = Config.run (st'.machine _ ((v :: .int (Int32.ofNat place) :: armCells arms).reverse ++ rts) temp')
  rw [List.reverse_cons, List.reverse_cons, List.append_assoc, List.append_assoc]
  rfl

theorem ExceptArm.Valid.codesRun {names : List Int} : ∀ {excepts : ExceptArm}, excepts.Valid names → excepts.Plain →
    ∀ (places : List Nat) (rts : List Var) {depth : Int}, (rts.length : Int) = depth → ∀ pc',
    S.Does (excepts.codesStand S.bc S.lits places depth) pc' rts rts (execCodes S.host fuel excepts) fun handlers st c =>
      ∃ arms temp, Guards S.host fuel excepts places arms handlers ∧
        c = .run (st.machine pc' ((armCells arms).reverse ++ rts) temp)
  | .nil, .nil, _, [], rts, depth, _, pc' => by
      rw [execCodes_nil]
      rintro n pc st temp rfl hlt hst
      exact .pure hst ⟨[], temp, .nil, rfl⟩
  | .nil, .nil, _, _ :: _, rts, depth, _, pc' => fun _ _ _ _ h => h.elim
  | .cons _ _ _ _, .cons _ _ _, _, [], rts, depth, _, pc' => fun _ _ _ _ h => h.elim
  | .cons id codes stmts next, .cons hcodes _ hnext, hp, place :: places, rts, depth, hdepth, pc' =>
      have hcells : Cells false none (-1) depth rts := ⟨hdepth, fun _ h => (by cases h), fun h => (by cases h)⟩
      does_codes (hcodes.handlerRuns hp.1 hcells) fun v => hnext.codesRun hp.2.2 places _ (by
        show ((rts.length + 1 + 1 : Nat) : Int) = depth + 2
        omega) pc'

/-! ## Catching -/

/-- Each handler goes on at its place. -/
def Setting.Catches (S : Setting W) (fuel : Nat) (arms : List Arm) (handlers : List (Var × (Exception → Eval W Flow)))
    (loops : List LoopPlace) (stop : Nat) (rts : List Var) : Prop :=
  ∀ code arm, arms.find? (fun arm => handles code arm.codes) = some arm → ∃ handler,
    firstHandler code handlers = some handler ∧ ∀ exc n st temp, exc.Ordinary → n ≤ fuel → st.Sane S.sane →
      S.Carries n (.run (st.machine arm.label.toInt.toNat (exc.value :: rts) temp)) (handler exc) st rts
        (EndsAt loops stop rts)

theorem catches_cons {place : Nat} (hplace : place < 2 ^ 31)
    (hhere : ∀ exc n st temp, exc.Ordinary → n ≤ fuel → st.Sane S.sane →
      S.Carries n (.run (st.machine place (exc.value :: rts) temp)) (caught S.host fuel id stmts exc) st rts
        (EndsAt loops stop rts)) (hnext : S.Catches fuel arms handlers loops stop rts) :
    S.Catches fuel (⟨v, Int32.ofNat place⟩ :: arms) ((v, caught S.host fuel id stmts) :: handlers) loops stop rts := by
  intro code arm harm
  rw [List.find?_cons] at harm
  rw [firstHandler]
  cases hcodes : handles code v with
  | true =>
      simp only [hcodes] at harm
      cases harm
      refine ⟨_, if_pos rfl, fun exc n st temp hexc hn hst => ?_⟩
      rw [label_place hplace]
      exact hhere exc n st temp hexc hn hst
  | false =>
      simp only [hcodes] at harm
      rw [if_neg Bool.false_ne_true]
      exact hnext code arm harm

/-- A handler, with the value of the exception on the stack. -/
theorem carries_caught {exc : Exception} (hexc : exc.Ordinary) (hn : n ≤ fuel) (hst : st.Sane S.sane)
    (hcode : Stretch.all [.when (0 ≤ id) (varOpAt S.bc .put id.toNat), opAt S.bc .pop, stmts.stands S.bc S.lits loops
      rts.length, jumpCode S.bc next stop] pc p) (hplain : stmts.Plain) (hp : p < S.bc.vector.length)
    (hlast : next = .nil → p = stop)
    (hstmts : ∀ p, S.Ends fuel (stmts.stands S.bc S.lits loops rts.length) loops p rts (execStmts S.host fuel stmts)) :
    S.Carries n (.run (st.machine pc (exc.value :: rts) temp)) (caught S.host fuel id stmts exc) st rts
      (EndsAt loops stop rts) := by
  obtain ⟨p1, hput, p2, hpop, p3, hstands, _, hjump, rfl⟩ := hcode
  have hp3 : p3 < S.bc.vector.length := Nat.lt_of_le_of_lt (forward_jump _ _ hjump) hp
  have hp1 : p1 < S.bc.vector.length := by
    have := forward_byte _ _ hpop
    have := stmts.forward hplain _ _ _ _ hstands
    omega
  -- behind the assignment, which only a handler with a name has
  have hrun : ∀ st : Store W, st.Sane S.sane → S.Carries n (.run (st.machine p1 (exc.value :: rts) temp))
      (execStmts S.host fuel stmts) st rts (EndsAt loops stop rts) := by
    intro st hst
    refine .step (step_pop hpop) ((hstmts p3 n p2 st temp hn hstands hp3 hst).onward ?_)
    intro flow st' c hends
    cases flow with
    | normal =>
        obtain ⟨temp', rfl⟩ := hends
        cases next with
        | nil =>
            -- the last handler needs no jump
            obtain rfl : _ = p3 := hjump
            exact ⟨_, ⟨temp', by rw [hlast rfl]⟩, .refl _⟩
        | cons _ _ _ _ => exact ⟨_, ⟨temp', rfl⟩, (Leads.one (step_jump hjump)).weaken⟩
    | _ => exact ⟨c, hends.anywhere (fun h => by cases h) stop, .refl c⟩
  unfold caught
  unfold Stretch.when at hput
  split at hput
  · next hid =>
      simp only [if_pos hid]
      exact .before (leads_put hput hp1) (.assign (hrun _ (hst.assign hexc.value _)))
  · next hid =>
      obtain rfl : p1 = pc := hput
      simp only [if_neg hid]
      exact hrun st hst

end

/-! ## `try … except` -/

section

variable {S : Setting W} {fuel pc' : Nat} {loops : List LoopPlace} {rts : List Var} {excepts : ExceptArm}
  {stmts : StmtList}

theorem handlerCells_length (arms : List Arm) (rts : List Var) :
    (handlerCells arms rts).length = rts.length + 2 * arms.length + 1 := by
  rw [handlerCells, List.length_cons, List.length_append, List.length_reverse, ActivStack.armCells_length]
  omega

theorem ends_tryExcept {names : List Int} (hexcepts : excepts.Valid names) (hplain : (Stmt.tryExcept stmts excepts).Plain)
    (hloops : ∀ loop ∈ loops, loop.Fits rts.length)
    (hbody : ∀ arms : List Arm, ∀ p, S.Ends fuel (stmts.stands S.bc S.lits loops (rts.length + 2 * arms.length + 1)) loops p
      (handlerCells arms rts) (execStmts S.host fuel stmts))
    (hcatches : ∀ places arms handlers p, Guards S.host fuel excepts places arms handlers →
      excepts.stands S.bc S.lits places pc' loops rts.length p pc' → pc' < S.bc.vector.length →
      S.Catches fuel arms handlers loops pc' rts) :
    S.Ends fuel ((Stmt.tryExcept stmts excepts).stands S.bc S.lits loops rts.length) loops pc' rts
      (execStmt S.host fuel (.tryExcept stmts excepts)) := by
  rintro n pc st temp hn ⟨places, p1, hcodes, p2, htry, p3, hnum, p4, hstands, p5, hend, p6, hlab, _, hstand, rfl⟩ hlt hst
  have hp4 : p4 < S.bc.vector.length := by
    have := forward_extended _ _ hend
    have := forward_operand _ _ hlab
    have := excepts.forward hplain.2.2 _ _ _ _ _ _ hstand
    omega
  have hp1 : p1 < S.bc.vector.length := by
    have := forward_extended _ _ htry
    have := forward_byte _ _ hnum
    have := stmts.forward hplain.1 _ _ _ _ hstands
    omega
  rw [execStmt]
  refine .seq (hexcepts.codesRun hplain.2.2 places rts rfl p1 n pc st temp hcodes hp1 hst) ?_
  rintro handlers st' _ hst' ⟨arms, temp', hguards, rfl⟩
  obtain ⟨hlength, hcount⟩ := hguards.length
  have hstep : S.step (.run (st'.machine p1 ((armCells arms).reverse ++ rts) temp')) =
      some (.run (st'.machine p3 (handlerCells arms rts) temp')) := by
    -- the number of the handlers fits its byte
    have hbyte : (UInt8.ofNat places.length).toNat = arms.length := by
      rw [UInt8.toNat_ofNat', hlength]
      exact Nat.mod_eq_of_lt (hcount ▸ hplain.2.1)
    rw [Setting.step, step_extended htry]
    show (eopTryExcept S.bc ⟨p2, _, _⟩).map _ = _
    rw [eopTryExcept, readOperand_byte hnum, hbyte]
    rfl
  rw [hlength] at hstands
  -- the body has ended, an arm takes its exception, or no arm does
  refine .step hstep (.handle (hbody arms p4 n p3 st' temp' hn hstands hp4 hst') hguards.ordinary ?_ ?_ ?_)
  · intro flow st2 c hends
    cases flow with
    | normal =>
        obtain ⟨temp2, rfl⟩ := hends
        exact ⟨_, ⟨temp2, rfl⟩, (Leads.one (step_endExcept ⟨p5, hend, p6, hlab, rfl⟩)).weaken⟩
    | _ =>
        -- what is no exception passes over the handlers
        rw [← handlerCells_append] at hends
        exact hends.lower (fun h => by cases h) (skipped_handlerCells hguards.ordinary) hloops _
  · intro exc arm hexc harm
    obtain ⟨handler, hfirst, hrun⟩ := hcatches places arms handlers p6 hguards hstand hlt _ arm harm
    refine ⟨handler exc, by rw [hfirst]; rfl, fun st2 temp2 hst2 => hrun exc n st2 temp2 hexc hn hst2⟩
  · intro exc hnone
    rw [hguards.none hnone]
    rfl

end

/-! ## `try … finally` -/

section

variable {S : Setting W} {fuel n p place pc pc' : Nat} {loops : List LoopPlace} {rts : List Var} {st : Store W}
  {temp v value : Var} {c : Config W} {why : Reason} {r : Except Stop Flow}

/-- How a handler of `finally` goes on. -/
def resumed (why : Reason) (value : Var) (m : Machine W) : Config W :=
  if why = .fallThru then .run m else .unwind why value m

theorem step_continue (hwhy : why ≠ .abort) (h : extendedAt S.bc .continue pc pc') :
    S.step (.run (st.machine pc (value :: .int why.num :: rts) temp)) =
      some (resumed why value (st.machine pc' rts temp)) := by
  have hreason : reasonOf why.num = some why := by
    cases why with
    | abort => exact absurd rfl hwhy
    | _ => rfl
  rw [Setting.step, step_extended h]
  show (reasonOf why.num).map _ = _
  rw [hreason]
  rfl

theorem hasHandler_finally {code : Var} : hasHandler code 0 (.finally place :: rts) = hasHandler code 0 rts := rfl

theorem popHandlers_finally {code : Var} (hwhy : why ≠ .abort) :
    popHandlers why code value 0 (.finally place :: rts) = some (place, value :: .int why.num :: rts) := by
  rw [popHandlers, if_pos hwhy]

/-- What is being unwound comes to the handler. -/
theorem step_finally (hwhy : why ≠ .abort ∧ why ≠ .exit) :
    S.step (.unwind why value (st.machine pc (.finally place :: rts) temp)) =
      some (.run (st.machine place (value :: .int why.num :: rts) temp)) := by
  rw [Setting.step, unwind_raise hwhy.2,
    machine_rts, popHandlers_finally hwhy.1]
  rfl

theorem step_finallyExit {depth goal : Nat} (hdepth : depth < 256) (hle : depth ≤ rts.length) :
    S.step (.unwind .exit (exitValue depth goal) (st.machine pc (.finally place :: rts) temp)) =
      some (.run (st.machine place (exitValue depth goal :: .int Reason.exit.num :: rts) temp)) := by
  show some (unwindExit (Int32.ofNat depth) (Int32.ofNat goal) (exitValue depth goal)
    (st.machine pc (.finally place :: rts) temp)) = _
  have hlen : (Var.finally place :: rts).length - depth = (rts.length - depth) + 1 := by
    rw [List.length_cons]
    omega
  unfold unwindExit
  dsimp only [Store.machine]
  rw [exit_depth hdepth, hlen, List.take_succ_cons, List.drop_succ_cons, popHandlers_finally (fun h => by cases h)]
  show some (Config.run (Machine.mk ⟨place, _ :: _ :: (rts.take _ ++ rts.drop _), _⟩ _ _)) = _
  rw [List.take_append_drop]

/-- The body has ended: the handler finds how, and can go on as the body would have done. -/
theorem finally_found (pc' : Nat) (hloops : ∀ loop ∈ loops, loop.Fits rts.length) (hr : r ≠ .error .killed ∧ r ≠ .error .trapped)
    (hstep : ∀ temp, S.step (.run (st.machine p (.finally place :: rts) temp)) =
      some (.run (st.machine place (zero :: .int Reason.fallThru.num :: rts) temp)))
    (hlands : Lands S.host S.sane (.finally place :: rts) (EndsAt loops p (.finally place :: rts)) (r, st) c) :
    ∃ why value temp, why ≠ .abort ∧ value.ordinary = true ∧
      S.step c = some (.run (st.machine place (value :: .int why.num :: rts) temp)) ∧
      ∀ st' temp', st'.Sane S.sane →
        Lands S.host S.sane rts (EndsAt loops pc' rts) (r, st') (resumed why value (st'.machine pc' rts temp')) := by
  obtain ⟨-, hlands⟩ := hlands
  cases r with
  | error stop =>
      cases stop with
      | killed => exact absurd rfl hr.1
      | trapped => exact absurd rfl hr.2
      | raised exc =>
          obtain ⟨hexc, q, temp, rfl⟩ := hlands
          by_cases hfound : (hasHandler exc.raise.code 0 rts || S.host.outer exc.raise.code) = true
          · refine ⟨.raise, exc.value, temp, fun h => (by cases h), hexc.value, ?_, fun st' temp' hst' =>
              ⟨hst', hexc, pc', temp', (raised_found hfound).symm⟩⟩
            rw [raised_found (hasHandler_finally.symm ▸ hfound)]
            exact step_finally ⟨fun h => (by cases h), fun h => (by cases h)⟩
          · -- no handler at all: `finally` is run all the same, with no value
            refine ⟨.uncaught, zero, temp, fun h => (by cases h), rfl, ?_, fun st' temp' hst' =>
              ⟨hst', hexc, pc', temp', (raised_uncaught hfound).symm⟩⟩
            rw [raised_uncaught (hasHandler_finally.symm ▸ hfound)]
            exact step_finally ⟨fun h => (by cases h), fun h => (by cases h)⟩
  | ok flow =>
      cases flow with
      | normal =>
          obtain ⟨temp, rfl⟩ := hlands
          exact ⟨.fallThru, zero, temp, fun h => (by cases h), rfl, hstep temp, fun st' temp' hst' =>
            ⟨hst', temp', rfl⟩⟩
      | «return» v =>
          obtain ⟨hv, q, temp, rfl⟩ := hlands
          exact ⟨.return, v, temp, fun h => (by cases h), hv,
            step_finally ⟨fun h => (by cases h), fun h => (by cases h)⟩, fun st' temp' hst' =>
              ⟨hst', hv, pc', temp', rfl⟩⟩
      | «break» exit =>
          obtain ⟨loop, hloop, hdepth, q, temp, rfl⟩ := hlands
          have hfits := (hloops loop (leftLoop_mem hloop)).exit
          exact ⟨.exit, _, temp, fun h => (by cases h), rfl, step_finallyExit (by omega) (by omega), fun st' temp' hst' =>
            ⟨hst', loop, hloop, hdepth, pc', temp', rfl⟩⟩
      | «continue» exit =>
          obtain ⟨loop, hloop, hdepth, q, temp, rfl⟩ := hlands
          have hfits := (hloops loop (leftLoop_mem hloop)).top
          exact ⟨.exit, _, temp, fun h => (by cases h), rfl, step_finallyExit (by omega) (by omega), fun st' temp' hst' =>
            ⟨hst', loop, hloop, hdepth, pc', temp', rfl⟩⟩

/-- What comes after the body of `try … finally`. -/
def Eval.lastly (handler : Eval W Flow) (r : Except Stop Flow × Store W) : Option (Except Stop Flow × Store W) :=
  match r.1 with
  | .error .killed | .error .trapped => some r
  | _ => (handler r.2).bind fun r' => some (if r'.1 = .ok .normal then r.1 else r'.1, r'.2)

theorem finally_bind (body handler : Eval W Flow) (st : Store W) :
    finally' body handler st = (body st).bind (Eval.lastly handler) := by
  show (body st).bind _ = _
  congr 1
  funext r
  obtain ⟨r, st'⟩ := r
  cases r with
  | ok flow => rfl
  | error why => cases why <;> rfl

theorem lastly_eq {handler : Eval W Flow} {st : Store W} (hr : r ≠ .error .killed ∧ r ≠ .error .trapped) :
    Eval.lastly handler (r, st) = (handler st).bind fun r' => some (if r'.1 = .ok .normal then r else r'.1, r'.2) := by
  cases r with
  | ok flow => rfl
  | error why =>
      cases why with
      | killed => exact absurd rfl hr.1
      | trapped => exact absurd rfl hr.2
      | raised exc => rfl

theorem ends_tryFinally {body handler : StmtList} (hplain : (Stmt.tryFinally body handler).Plain)
    (hloops : ∀ loop ∈ loops, loop.Fits rts.length)
    (hbody : ∀ place p, S.Ends fuel (body.stands S.bc S.lits loops (rts.length + 1)) loops p (.finally place :: rts)
      (execStmts S.host fuel body))
    (hhandler : ∀ v w p, S.Ends fuel (handler.stands S.bc S.lits loops (rts.length + 2)) loops p (v :: w :: rts)
      (execStmts S.host fuel handler)) :
    S.Ends fuel ((Stmt.tryFinally body handler).stands S.bc S.lits loops rts.length) loops pc' rts
      (execStmt S.host fuel (.tryFinally body handler)) := by
  rintro n pc st temp hn ⟨place, p1, htry, p2, hlab, p3, hstands, p4, hend, p5, ⟨rfl, rfl⟩, p6, hstands', _, hcont, rfl⟩
    hlt hst
  have hp6 := Nat.lt_of_le_of_lt (forward_extended _ _ hcont) hlt
  have hp4 := Nat.lt_of_le_of_lt (handler.forward hplain.2 _ _ _ _ hstands') hp6
  have hp3 := Nat.lt_of_le_of_lt (forward_extended _ _ hend) hp4
  have hpush : S.step (.run (st.machine pc rts temp)) = some (.run (st.machine p2 (.finally p5 :: rts) temp)) := by
    rw [Setting.step, step_extended htry]
    show (eopPushLabel S.bc .finally ⟨p1, rts, st.env⟩).map _ = _
    rw [eopPushLabel, readOperand_at hlab]
    rfl
  rw [execStmt]
  refine .step hpush ?_
  unfold Carries
  rw [finally_bind]
  refine Follows.bind (hbody p5 p3 n p2 st temp hn hstands hp3 hst) ?_
  rintro ⟨r, st'⟩ c hlands
  by_cases hr : r ≠ .error .killed ∧ r ≠ .error .trapped
  · obtain ⟨why, value, temp', hwhy, hvalue, hstep, hresumed⟩ :=
      finally_found _ hloops hr (fun temp => step_extended hend) hlands
    rw [lastly_eq hr]
    refine .before (.one hstep) (.bind (hhandler value (.int why.num) p6 n p5 st' temp' hn hstands' hp6 hlands.1) ?_)
    rintro ⟨r', st2⟩ c' ⟨hst2, hlands'⟩
    have hJ : Unmarked [value, .int why.num] := (Ordinary.cons hvalue (.cons rfl .nil)).unmarked
    cases r' with
    | error why' =>
        -- the handler has failed: how the body has ended is forgotten
        obtain ⟨c2, hstops, hlead⟩ := Stops.lower (J := [value, .int why.num]) hlands' hJ
        exact .some ⟨hst2, hstops⟩ hlead
    | ok flow =>
        cases flow with
        | normal =>
            -- `EOP_CONTINUE` takes up what the body has come to
            obtain ⟨temp2, rfl⟩ := hlands'
            exact .some (hresumed st2 temp2 hst2) (.one (step_continue hwhy hcont))
        | _ =>
            have hends : EndsAt loops p6 ([value, .int why.num] ++ rts) _ st2 c' := hlands'
            obtain ⟨c2, hends', hlead⟩ := hends.lower (fun h => by cases h) hJ.skipped hloops _
            exact .some ⟨hst2, hends'⟩ hlead
  · -- a kill passes over the handler
    have hstop : r = .error .killed ∨ r = .error .trapped := by
      by_contra h
      exact hr ⟨fun hk => h (.inl hk), fun ht => h (.inr ht)⟩
    rcases hstop with rfl | rfl
    · exact .some hlands (.refl c)
    · exact .some hlands (.refl c)

end

end Waverous
