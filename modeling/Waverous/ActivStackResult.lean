import Waverous.ActivStackRun

/-! # The value that `run` stores — `execute.c`

    A run is done when a return has unwound the outermost activation, and only then
    (`unwindStack_done_iff`).  OP_RETURN, OP_RETURN0 and OP_DONE store the value they unwind
    the stack with.  A return that passes through a FINALLY body of the outermost
    activation ends the run in EOP_CONTINUE, and the caller's variable is what it was. -/

namespace Waverous.ActivStack

open Runs

variable {lineNumber : Activation → Int32} {funcName : Nat → Str} {replies : Nat → Reply}

/-! ## When a run is done -/

/-- No FINALLY marker is left. -/
def NoFinally (rts : List Var) : Prop := ∀ pc, Var.finally pc ∉ rts

/-- Only a FINALLY marker stops a return. -/
theorem popHandlers_return (code value : Var) (rts : List Var) :
    popHandlers .return code value 0 rts = none ↔ NoFinally rts := by
  induction rts with
  | nil => exact iff_of_true rfl fun pc => List.not_mem_nil
  | cons v rest ih =>
      cases v with
      | «finally» pc =>
          have hstops : popHandlers .return code value 0 (.finally pc :: rest) =
              some (pc, value :: .int Reason.return.num :: rest) := rfl
          rw [hstops]
          exact iff_of_false (fun h => nomatch h) fun h => h pc List.mem_cons_self
      | _ => simpa [popHandlers, NoFinally] using ih

section Unwinding

variable {s : Vm} {top : Nat} {why : Reason} {value : Var}

/-- An error or an abort does not end a run with a value. -/
theorem unwindStack_not_done (hs : s.outcome ≠ some .done) (hwhy : why ≠ .return) :
    (unwindStack lineNumber funcName replies top why value s).outcome ≠ some .done := by
  induction top generalizing s with
  | zero =>
      simp only [unwindStack]
      split
      · exact hs
      · simp [Vm.finish, hwhy]
  | succ top ih =>
      simp only [unwindStack, if_neg hwhy]
      split
      · exact hs
      · split
        · exact ih (by rw [(shortCircuit_goes_on _ _ _ _ _).2]; exact hs)
        · exact ih hs

/-- A run is done when a return has got past the last FINALLY of the outermost activation. -/
theorem unwindStack_done_iff (hs : s.outcome ≠ some .done) :
    (unwindStack lineNumber funcName replies top why value s).outcome = some .done ↔
      why = .return ∧ top = 0 ∧ NoFinally (s.slots 0).rtStack := by
  by_cases hwhy : why = .return
  · subst hwhy
    cases top with
    | zero =>
        rw [← popHandlers_return (codeOf .return value) value]
        simp only [unwindStack]
        split
        next h =>
          rw [h]
          exact iff_of_false hs fun h => by cases h.2.2
        next h => exact iff_of_true rfl ⟨trivial, trivial, h⟩
    | succ top =>
        refine iff_of_false ?_ fun h => by cases h.2.1
        simp only [unwindStack, if_true]
        split
        · exact hs
        · split
          · cases replies (top + 1) with
            | «return» ret => exact hs
            | raise code msg value' =>
                simp only []
                split
                · exact unwindStack_not_done hs (raised_ne_return _ _ _ _ _)
                · exact hs
            | call callee pc data next => exact hs
            | suspend e =>
                simp only []
                split
                · intro h
                  cases h
                · exact unwindStack_not_done hs fun h => by cases h
            | kill => exact unwindStack_not_done hs fun h => by cases h
          · exact hs
  · exact iff_of_false (unwindStack_not_done hs hwhy) fun h => hwhy h.1

theorem raiseError_not_done {code : Var} {msg : Str} (hs : s.outcome ≠ some .done) :
    (raiseError lineNumber funcName replies code msg value s).outcome ≠ some .done :=
  unwindStack_not_done hs (raised_ne_return _ _ _ _ _)

theorem biFuncCall_not_done {id : Nat} {reply : Reply} (hs : s.outcome ≠ some .done) :
    (biFuncCall lineNumber funcName id reply replies s).outcome ≠ some .done := by
  cases reply with
  | «return» ret => exact hs
  | raise code msg value' =>
      simp only [biFuncCall]
      split
      · exact raiseError_not_done hs
      · exact hs
  | call callee pc data next => exact hs
  | suspend e =>
      simp only [biFuncCall]
      split
      · intro h
        cases h
      · split
        · exact raiseError_not_done hs
        · exact hs
  | kill => exact unwindStack_not_done hs fun h => by cases h

theorem unwindExit_outcome (height label : Int32) (value : Var) (s : Vm) :
    (unwindExit height label value s).outcome = s.outcome := by
  simp only [unwindExit]
  split <;> rfl

/-- Of the reasons that EOP_CONTINUE takes up only a return can end the run with a value. -/
theorem continues_done_iff {why : Var} {s' : Vm} (hs : s.outcome ≠ some .done)
    (h : s.continues lineNumber funcName replies value why = some s') :
    s'.outcome = some .done ↔
      why = .int Reason.return.num ∧ s.top = 0 ∧ NoFinally (s.slots 0).rtStack := by
  simp only [Vm.continues] at h
  split at h
  next hw =>
    obtain rfl := Option.some.inj h
    exact iff_of_false hs fun hd => by rw [hw] at hd; exact absurd hd.1 (by decide)
  split at h
  next hw =>
    refine iff_of_false ?_ fun hd => by rw [hw] at hd; exact absurd hd.1 (by decide)
    split at h
    · obtain rfl := Option.some.inj h
      rw [unwindExit_outcome]
      exact hs
    · cases h
  split at h
  next hw =>
    obtain rfl := Option.some.inj h
    exact iff_of_false (unwindStack_not_done hs fun hd => (by cases hd))
      fun hd => by rw [hw] at hd; exact absurd hd.1 (by decide)
  split at h
  next hw =>
    obtain rfl := Option.some.inj h
    rw [unwindStack_done_iff hs]
    exact ⟨fun hd => ⟨hw, hd.2⟩, fun hd => ⟨rfl, hd.2⟩⟩
  next hw =>
    refine iff_of_false ?_ fun hd => hw hd.1
    split at h
    · obtain rfl := Option.some.inj h
      exact unwindStack_not_done hs fun hd => by cases hd
    · cases h

end Unwinding

/-! ## One opcode -/

/-- The caller has been given the value that the outermost activation has returned. -/
def RunState.HandsOver (s : RunState) : Prop :=
  ∃ value, s.returned = some value ∧ s.result = some value

/-- EOP_CONTINUE takes up a return of the outermost activation, and no other FINALLY stops it. -/
def RunState.ReturnsByContinue (s : RunState) (op : Opcode) : Prop :=
  op = .continue ∧ s.vm.top = 0 ∧
    ∃ value rest, s.vm.rts = value :: .int Reason.return.num :: rest ∧ NoFinally rest

variable {s s' : RunState} {op : Opcode}

/-- The run goes on, or an opcode that stores the value has ended it, or one that does not. -/
inductive Turn (s : RunState) (op : Opcode) (s' : RunState) : Prop where
  | goesOn : s'.vm.outcome ≠ some .done → ¬ s.ReturnsByContinue op → s'.result = s.result →
      Turn s op s'
  | stores : s'.vm.outcome = some .done → ¬ s.ReturnsByContinue op → s'.HandsOver → Turn s op s'
  | byContinue : s'.vm.outcome = some .done → s.ReturnsByContinue op → s'.result = s.result →
      Turn s op s'

/-- OP_RETURN, OP_RETURN0 and OP_DONE. -/
theorem returns_turn (s : RunState) (hop : op ≠ .continue) (value : Var) (vm : Vm)
    (hvm : vm.outcome ≠ some .done) :
    Turn s op (RunState.returns lineNumber funcName replies value { s with vm }) := by
  by_cases hdone : (unwindStack lineNumber funcName replies vm.top .return value vm).outcome =
      some .done
  · have htop : vm.top = 0 := ((unwindStack_done_iff hvm).mp hdone).2.1
    exact .stores hdone (fun h => hop h.1) ⟨value, if_pos htop, if_pos hdone⟩
  · exact .goesOn hdone (fun h => hop h.1) (if_neg hdone)

theorem continue_turn (hs : s.vm.outcome ≠ some .done)
    (h : s.opcode lineNumber funcName replies .continue = some s') : Turn s .continue s' := by
  simp only [RunState.opcode] at h
  split at h
  next value why rest hrts =>
    obtain ⟨vm, hvm, rfl⟩ := Option.map_eq_some_iff.mp h
    have hdone : vm.outcome = some .done ↔ s.ReturnsByContinue .continue := by
      rw [continues_done_iff (s := s.vm.setRts rest) hs hvm]
      constructor
      · rintro ⟨hwhy, htop, hfin⟩
        have htop : s.vm.top = 0 := htop
        refine ⟨rfl, htop, value, rest, by rw [hrts, hwhy], ?_⟩
        simpa [Vm.setRts, htop] using hfin
      · rintro ⟨-, htop, value', rest', hrts', hfin⟩
        obtain ⟨rfl, rfl, rfl⟩ : value = value' ∧ why = .int Reason.return.num ∧ rest = rest' := by
          simpa using hrts.symm.trans hrts'
        refine ⟨rfl, htop, ?_⟩
        simpa [Vm.setRts, htop] using hfin
    by_cases hc : s.ReturnsByContinue .continue
    · exact .byContinue (hdone.mpr hc) hc rfl
    · exact .goesOn (fun hd => hc (hdone.mp hd)) hc rfl
  next => cases h

theorem opcode_turn (hs : s.vm.outcome ≠ some .done)
    (h : s.opcode lineNumber funcName replies op = some s') : Turn s op s' := by
  cases op with
  | «continue» => exact continue_turn hs h
  | plain n push pc errorPc =>
      obtain ⟨-, h⟩ := Option.ite_none_right_eq_some.mp h
      obtain rfl := Option.some.inj h
      exact .goesOn hs (fun h => (by cases h.1)) rfl
  | tryFinally | tryExcept =>
      obtain rfl := Option.some.inj h
      exact .goesOn hs (fun h => (by cases h.1)) rfl
  | endCatch label =>
      simp only [RunState.opcode] at h
      split at h
      · obtain ⟨rest, -, rfl⟩ := Option.map_eq_some_iff.mp h
        exact .goesOn hs (fun h => (by cases h.1)) rfl
      · cases h
  | endExcept label =>
      obtain ⟨rest, -, rfl⟩ := Option.map_eq_some_iff.mp h
      exact .goesOn hs (fun h => (by cases h.1)) rfl
  | endFinally =>
      simp only [RunState.opcode] at h
      split at h
      · obtain rfl := Option.some.inj h
        exact .goesOn hs (fun h => (by cases h.1)) rfl
      · cases h
  | exit height label =>
      obtain rfl := Option.some.inj h
      exact .goesOn (by rw [unwindExit_outcome]; exact hs) (fun h => (by cases h.1)) rfl
  | «return» =>
      simp only [RunState.opcode] at h
      split at h
      next value rest hrts =>
        obtain rfl := Option.some.inj h
        have hop : Opcode.return ≠ .continue := fun h => by cases h
        exact returns_turn s hop value (s.vm.setRts rest) hs
      next => cases h
  | return0 =>
      obtain rfl := Option.some.inj h
      have hop : Opcode.return0 ≠ .continue := fun h => by cases h
      exact returns_turn s hop zero s.vm hs
  | done =>
      obtain rfl := Option.some.inj h
      have hop : Opcode.done ≠ .continue := fun h => by cases h
      exact returns_turn s hop zero s.vm hs
  | callVerb callee =>
      obtain ⟨-, h⟩ := Option.ite_none_right_eq_some.mp h
      obtain rfl := Option.some.inj h
      exact .goesOn hs (fun h => (by cases h.1)) rfl
  | biFuncCall id reply =>
      obtain rfl := Option.some.inj h
      exact .goesOn (biFuncCall_not_done hs) (fun h => (by cases h.1)) rfl
  | raiseError code msg value =>
      obtain rfl := Option.some.inj h
      exact .goesOn (raiseError_not_done hs) (fun h => (by cases h.1)) rfl
  | abort =>
      obtain rfl := Option.some.inj h
      exact .goesOn (unwindStack_not_done hs fun h => (by cases h)) (fun h => (by cases h.1)) rfl

/-! ## A whole run -/

variable {vm : Vm} {xs : List (Opcode × (Nat → Reply))}

theorem run_of_outcome {o : Outcome} (hs : s.vm.outcome = some o)
    (hrun : Run (ofPart (RunState.step lineNumber funcName)) s xs s') : xs = [] ∧ s' = s := by
  cases hrun with
  | nil => exact ⟨rfl, rfl⟩
  | cons h _ => exact nomatch hs.symm.trans (step_outcome h).1

/-- The run from a state in which nothing has been stored. -/
theorem hands_over_iff_guarded {t : RunState} (ht : t.vm.outcome = none) (hres : t.result = none)
    (hrun : Run (ofPart (RunState.step lineNumber funcName)) t xs s)
    (hdone : s.vm.outcome = some .done) :
    s.HandsOver ↔
      Run (guarded (fun t x => ¬ t.ReturnsByContinue x.1)
        (ofPart (RunState.step lineNumber funcName))) t xs s := by
  induction hrun with
  | nil t => exact nomatch ht.symm.trans hdone
  | @cons t x t' xs s hstep hrest ih =>
      rw [run_guarded_cons_iff hstep]
      have hturn : Turn t x.1 t' :=
        opcode_turn (by rw [ht]; exact fun h => nomatch h) (step_outcome hstep).2
      cases ho : t'.vm.outcome with
      | none =>
          cases hturn with
          | goesOn _ hc hkeep =>
              rw [ih ho (hkeep.trans hres) hdone]
              exact ⟨fun h => ⟨hc, h⟩, And.right⟩
          | stores hd => exact nomatch ho.symm.trans hd
          | byContinue hd => exact nomatch ho.symm.trans hd
      | some o =>
          -- this opcode is the last
          obtain ⟨rfl, rfl⟩ := run_of_outcome ho hrest
          cases hturn with
          | goesOn hnot => exact absurd hdone hnot
          | stores _ hc hv => exact ⟨fun _ => ⟨hc, .nil _⟩, fun _ => hv⟩
          | byContinue _ hc hkeep =>
              refine ⟨fun ⟨v, _, hv⟩ => ?_, fun h => absurd hc h.1⟩
              exact nomatch (hkeep.trans hres).symm.trans hv

/-- A run that is done has given the caller the value that the outermost activation has
    returned, unless a return of that activation was completed by EOP_CONTINUE. -/
theorem run_hands_over (hvm : vm.outcome = none)
    (hrun : Run (ofPart (RunState.step lineNumber funcName)) (RunState.start vm) xs s)
    (hdone : s.vm.outcome = some .done) :
    s.HandsOver ↔
      Run (guarded (fun t x => ¬ t.ReturnsByContinue x.1)
        (ofPart (RunState.step lineNumber funcName))) (RunState.start vm) xs s :=
  hands_over_iff_guarded hvm rfl hrun hdone

/-- A task with one activation, that of its top-level verb. -/
def oneActivation : Vm := { Vm.init with running := true }

/-- What it runs for `return 5`, when the 5 is what a verb returns in a `try`…`finally`. -/
def returnOfVerb : List (Opcode × (Nat → Reply)) :=
  [.callVerb { progr := 2 }, .tryFinally 7, .plain 0 [.int 5] 3 0, .return, .continue, .return].map
    fun op => (op, fun _ => .return zero)

theorem run_hands_over_returnOfVerb :
    ∃ s, Run (ofPart (RunState.step (fun _ => 0) fun _ => [])) (RunState.start oneActivation)
      returnOfVerb s ∧ s.HandsOver := by
  have hrun : Run (ofPart (RunState.step (fun _ => 0) fun _ => [])) (RunState.start oneActivation)
      returnOfVerb _ :=
    .cons rfl <| .cons rfl <| .cons rfl <| .cons rfl <| .cons rfl <| .cons rfl (.nil _)
  refine ⟨_, hrun, (run_hands_over rfl hrun rfl).mpr ?_⟩
  have hcontinue : ∀ t : RunState, t.vm.top = 1 → ¬ t.ReturnsByContinue .continue :=
    fun t ht h => nomatch ht.symm.trans h.2.1
  exact .cons ⟨fun h => (nomatch h.1), rfl⟩ <| .cons ⟨fun h => (nomatch h.1), rfl⟩ <|
    .cons ⟨fun h => (nomatch h.1), rfl⟩ <| .cons ⟨fun h => (nomatch h.1), rfl⟩ <|
    .cons ⟨hcontinue _ rfl, rfl⟩ <| .cons ⟨fun h => (nomatch h.1), rfl⟩ (.nil _)

/-- What it runs for `try return 5; finally endtry`. -/
def returnInTry : List (Opcode × (Nat → Reply)) :=
  [.tryFinally 7, .plain 0 [.int 5] 3 0, .return, .continue].map fun op =>
    (op, fun _ => .return zero)

/-- It is done, and nothing has been stored. -/
theorem continue_stores_nothing :
    ∃ s, Run (ofPart (RunState.step (fun _ => 0) fun _ => [])) (RunState.start oneActivation)
      returnInTry s ∧ s.vm.outcome = some .done ∧ s.returned = some (.int 5) ∧ ¬ s.HandsOver := by
  refine ⟨_, .cons rfl <| .cons rfl <| .cons rfl <| .cons rfl (.nil _), rfl, rfl, ?_⟩
  rintro ⟨v, -, hv⟩
  exact nomatch hv

end Waverous.ActivStack
