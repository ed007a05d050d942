import Waverous.CodeRuns

/-! # Handlers on the stack — `execute.c`

    The codes of handlers lie on the stack with the places of the handlers, and a marker on top of
    them.  An exception that one of them takes goes on at its place; any other passes over them all. -/

namespace Waverous

open Machines
open ActivStack

variable {W : Type} {α : Type}

/-! ## Passing over -/

/-- The stack of handlers, and their marker. -/
def handlerCells (arms : List Arm) (rts : List Var) : List Var := .catch arms.length :: ((armCells arms).reverse ++ rts)

theorem handlerCells_append (arms : List Arm) (rts : List Var) : handlerCells arms [] ++ rts = handlerCells arms rts := by
  show _ :: (((armCells arms).reverse ++ []) ++ rts) = _
  rw [List.append_nil]
  rfl

theorem armCells_unmarked {arms : List Arm} (h : ∀ arm ∈ arms, arm.codes.ordinary = true) :
    Unmarked (armCells arms).reverse := by
  intro v hv
  obtain ⟨arm, harm, hv⟩ := List.mem_flatMap.mp (List.mem_reverse.mp hv)
  rcases List.mem_cons.mp hv with rfl | hv
  · exact not_marker (h arm harm)
  · cases List.mem_singleton.mp hv
    rfl

section

variable {arms : List Arm} {rts : List Var} {code value : Var} {why : Reason}

theorem hasHandler_handlerCells : hasHandler code 0 (handlerCells arms rts) =
    ((arms.any fun arm => handles code arm.codes) || hasHandler code 0 rts) := by
  show (anyHandles code ((((armCells arms).reverse ++ rts).take (2 * arms.length)).reverse) ||
    hasHandler code (2 * arms.length) ((armCells arms).reverse ++ rts)) = _
  have hlen : 2 * arms.length = (armCells arms).reverse.length := by rw [List.length_reverse, armCells_length]
  rw [take_armCells, anyHandles_armCells, hlen, hasHandler_skip]

theorem popHandlers_taken {arm : Arm} (h : arms.find? (fun arm => handles code arm.codes) = some arm) :
    popHandlers .raise code value 0 (handlerCells arms rts) = some (arm.label.toInt.toNat, value :: rts) := by
  have hpc : handlerPc code ((((armCells arms).reverse ++ rts).take (2 * arms.length)).reverse) =
      some arm.label.toInt.toNat := by
    rw [take_armCells, handlerPc_armCells, h]
    rfl
  rw [handlerCells, popHandlers, if_pos rfl, hpc, drop_armCells]

theorem popHandlers_over (harms : ∀ arm ∈ arms, arm.codes.ordinary = true)
    (h : why = .raise → arms.find? (fun arm => handles code arm.codes) = none) :
    popHandlers why code value 0 (handlerCells arms rts) = popHandlers why code value 0 rts := by
  by_cases hwhy : why = .raise
  · -- the marker has its handlers looked at, and they are skipped
    have hpc : handlerPc code ((((armCells arms).reverse ++ rts).take (2 * arms.length)).reverse) = none := by
      rw [take_armCells, handlerPc_armCells, h hwhy]
      rfl
    have hlen : 2 * arms.length = (armCells arms).reverse.length := by rw [List.length_reverse, armCells_length]
    rw [handlerCells, popHandlers, if_pos hwhy, hpc]
    show popHandlers why code value (2 * arms.length) ((armCells arms).reverse ++ rts) = _
    rw [hlen, popHandlers_skip]
  · -- the marker is popped like any cell
    rw [handlerCells, popHandlers, if_neg hwhy]
    exact popHandlers_unmarked (armCells_unmarked harms) why code value rts

end

/-! ## The opcodes -/

section

variable {S : Setting W} {arms : List Arm} {rts : List Var} {st : Store W} {pc pc' target : Nat} {temp v : Var}

/-- A place in a vector, as the value for a handler. -/
theorem label_place (h : target < 2 ^ 31) : (Int32.ofNat target).toInt.toNat = target := by
  rw [Int32.toInt_ofNat_of_lt h]
  exact Int.toNat_natCast target

theorem step_pushLabel (h : Stretch.all [extendedAt S.bc .pushLabel, labelAt S.bc target] pc pc') :
    S.step (.run (st.machine pc rts temp)) =
      some (.run (st.machine pc' (.int (Int32.ofNat target) :: rts) temp)) := by
  obtain ⟨p, hop, _, hlab, rfl⟩ := h
  rw [Setting.step, step_extended hop]
  show (eopPushLabel S.bc _ ⟨p, rts, st.env⟩).map _ = _
  rw [eopPushLabel, readOperand_at hlab]
  rfl

theorem endHandlers_at {bc : Bytecodes} {p : Nat} {kept rtEnv : List Var} (hlab : labelAt bc target p pc') :
    endHandlers bc kept ⟨p, handlerCells arms rts, rtEnv⟩ = some (.opcode ⟨target, kept ++ rts, rtEnv⟩) := by
  show ((readOperand bc bc.numbytesLabel ⟨p, kept ++ ((armCells arms).reverse ++ rts).drop (2 * arms.length),
    rtEnv⟩).bind _ : Option Next) = _
  rw [drop_armCells, readOperand_at hlab]
  rfl

/-- `EOP_END_CATCH`: the value stays. -/
theorem step_endCatch (h : Stretch.all [extendedAt S.bc .endCatch, labelAt S.bc target] pc pc') :
    S.step (.run (st.machine pc (v :: handlerCells arms rts) temp)) = some (.run (st.machine target (v :: rts) temp)) := by
  obtain ⟨p, hop, _, hlab, rfl⟩ := h
  rw [Setting.step, step_extended hop]
  show (endHandlers S.bc [v] ⟨p, handlerCells arms rts, st.env⟩).map _ = _
  rw [endHandlers_at hlab]
  rfl

/-- `EOP_END_EXCEPT`. -/
theorem step_endExcept (h : Stretch.all [extendedAt S.bc .endExcept, labelAt S.bc target] pc pc') :
    S.step (.run (st.machine pc (handlerCells arms rts) temp)) = some (.run (st.machine target rts temp)) := by
  obtain ⟨p, hop, _, hlab, rfl⟩ := h
  rw [Setting.step, step_extended hop]
  show (endHandlers S.bc [] ⟨p, handlerCells arms rts, st.env⟩).map _ = _
  rw [endHandlers_at hlab]
  rfl

end

/-! ## An exception at handlers -/

section

variable {S : Setting W} {arms : List Arm} {rts : List Var} {exc : Exception} {st : Store W} {n pc : Nat}
  {temp : Var} {c : Config W}

/-- The handler goes on. -/
theorem leads_taken {arm : Arm} (h : arms.find? (fun arm => handles exc.raise.code arm.codes) = some arm) :
    Leads S.step 0 ((st.machine pc (handlerCells arms rts) temp).raised S.host exc)
      (.run (st.machine arm.label.toInt.toNat (exc.value :: rts) temp)) := by
  have hany : (arms.any fun arm => handles exc.raise.code arm.codes) = true :=
    List.any_eq_true.mpr ⟨arm, List.mem_of_find?_eq_some h, List.find?_some (p := fun arm : Arm => handles _ arm.codes) h⟩
  have hraised : (st.machine pc (handlerCells arms rts) temp).raised S.host exc =
      .unwind .raise exc.value (st.machine pc (handlerCells arms rts) temp) := by
    refine raised_found ?_
    rw [hasHandler_handlerCells, hany]
    rfl
  rw [hraised]
  refine (Leads.one ?_).weaken
  rw [Setting.step, unwind_raise (fun h => by cases h), machine_rts,
    show codeOf .raise exc.value = exc.raise.code from rfl, popHandlers_taken h]
  rfl

/-- No handler takes it. -/
theorem leads_over (harms : ∀ arm ∈ arms, arm.codes.ordinary = true)
    (h : arms.find? (fun arm => handles exc.raise.code arm.codes) = none) (pc' : Nat) :
    Leads S.step 0 ((st.machine pc (handlerCells arms rts) temp).raised S.host exc)
      ((st.machine pc' rts temp).raised S.host exc) := by
  have hnone : (arms.any fun arm => handles exc.raise.code arm.codes) = false :=
    List.any_eq_false.mpr fun arm harm => List.find?_eq_none.mp h arm harm
  refine raised_over ?_ ?_ pc pc' temp
  · rw [hasHandler_handlerCells, hnone, Bool.false_or]
  · rintro why value (⟨rfl, rfl⟩ | rfl)
    · exact popHandlers_over harms fun _ => h
    · exact popHandlers_over harms fun h => by cases h

/-- What comes after the body of a handler. -/
def Eval.caught (handler : Exception → Option (Eval W α)) (r : Except Stop α × Store W) :
    Option (Except Stop α × Store W) :=
  match r.1 with
  | .error (.raised exc) => (handler exc).elim (some r) fun next => next r.2
  | _ => some r

theorem handle_bind (body : Eval W α) (handler : Exception → Option (Eval W α)) (st : Store W) :
    handle body handler st = (body st).bind (Eval.caught handler) := by
  show (body st).bind _ = _
  congr 1
  funext r
  obtain ⟨r, st'⟩ := r
  cases r with
  | ok a => rfl
  | error why =>
      cases why with
      | raised exc =>
          show _ = (handler exc).elim _ _
          dsimp only
          cases handler exc <;> rfl
      | _ => rfl

/-- A computation under handlers: what they take goes on with `next`. -/
theorem Carries.handle {body : Eval W α} {handler : Exception → Option (Eval W α)}
    {good good' : α → Store W → Config W → Prop}
    (hbody : S.Carries n c body st (handlerCells arms rts) good)
    (harms : ∀ arm ∈ arms, arm.codes.ordinary = true)
    (hon : ∀ a st' c', good a st' c' → ∃ c'', good' a st' c'' ∧ Leads S.step 0 c' c'')
    (htaken : ∀ exc arm, exc.Ordinary → arms.find? (fun arm => handles exc.raise.code arm.codes) = some arm →
      ∃ next, handler exc = some next ∧ ∀ st' temp, st'.Sane S.sane →
        S.Carries n (.run (st'.machine arm.label.toInt.toNat (exc.value :: rts) temp)) next st' rts good')
    (hover : ∀ exc, arms.find? (fun arm => handles exc.raise.code arm.codes) = none → handler exc = none) :
    S.Carries n c (handle body handler) st rts good' := by
  unfold Setting.Carries Waverous.Carries
  rw [handle_bind]
  refine Follows.bind hbody ?_
  rintro ⟨r, st'⟩ t ⟨hst, hgood⟩
  cases r with
  | ok a =>
      obtain ⟨c'', hgood', hlead⟩ := hon a st' t hgood
      exact ⟨c'', ⟨hst, hgood'⟩, hlead⟩
  | error why =>
      cases why with
      | killed | trapped => exact ⟨t, ⟨hst, hgood⟩, .refl t⟩
      | raised exc =>
          obtain ⟨hexc, pc, temp, rfl⟩ := hgood
          cases hfind : arms.find? (fun arm => handles exc.raise.code arm.codes) with
          | none =>
              -- it stays an exception, on the stack below the handlers
              show Follows _ n _ ((handler exc).elim _ _) _
              rw [hover exc hfind]
              exact ⟨_, ⟨hst, hexc, pc, temp, rfl⟩, leads_over harms hfind pc⟩
          | some arm =>
              obtain ⟨next, hnext, hrun⟩ := htaken exc arm hexc hfind
              show Follows _ n _ ((handler exc).elim _ _) _
              rw [hnext]
              exact .before (leads_taken hfind) (hrun st' temp hst)

end

end Waverous
