import Waverous.Landing
import Waverous.CodeForward

/-! # What code does — `execute.c`

    `code.Does`: from the code with a stack on top of `rts`, the interpreter carries a computation of
    the tree out.  The computations of the evaluator are put together by `eval`, with the value of each
    on the stack while the next ones are run; one lemma for each kind of opcode gives the ends. -/

namespace Waverous

open Machines

variable {W : Type} {α β : Type}

/-- A vector with its literals, and what it is run with. -/
structure Setting (W : Type) where
  host : Host W
  bc : Bytecodes
  lits : List Var
  sane : W → Prop
  hostSane : host.Sane sane
  literals : Ordinary lits
  /-- a place is an `int` -/
  small : bc.vector.length < 2 ^ 31
  /-- a cell of the stack is one byte -/
  cells : bc.numbytesStack = 1

/-- A stack with some values more. -/
def Over (stack rts : List Var) : Prop := ∃ J, stack = J ++ rts ∧ Unmarked J

theorem Over.refl (rts : List Var) : Over rts rts := ⟨[], rfl, fun _ hv => by cases hv⟩

theorem Over.push {stack rts : List Var} (h : Over stack rts) {v : Var} (hv : v.ordinary = true) :
    Over (v :: stack) rts := by
  obtain ⟨J, rfl, hJ⟩ := h
  refine ⟨v :: J, rfl, ?_⟩
  intro w hw
  rcases List.mem_cons.mp hw with rfl | hw
  · exact not_marker hv
  · exact hJ w hw

theorem Over.pushed {rts : List Var} {v : Var} (hv : v.ordinary = true) : Over (v :: rts) rts :=
  (Over.refl rts).push hv

theorem Over.values {rts J : List Var} (hJ : Ordinary J) : Over (J ++ rts) rts := ⟨J, rfl, hJ.unmarked⟩

namespace Setting

variable (S : Setting W)

/-- `Carries`, in this setting. -/
abbrev Carries (n : Nat) (c : Config W) (m : Eval W α) (st : Store W) (rts : List Var)
    (good : α → Store W → Config W → Prop) : Prop :=
  Waverous.Carries S.host S.bc S.lits S.sane n c m st rts good

/-- The next state. -/
abbrev step (c : Config W) : Option (Config W) := c.step S.host S.bc S.lits

/-- From the code, which ends at `pc'`, with this stack the interpreter does what `m` does; more code
    is behind it. -/
def Does (code : Stretch) (pc' : Nat) (stack rts : List Var) (m : Eval W α)
    (good : α → Store W → Config W → Prop) : Prop :=
  ∀ n pc st temp, code pc pc' → pc' < S.bc.vector.length → st.Sane S.sane →
    S.Carries n (.run (st.machine pc stack temp)) m st rts good

/-- The code puts the value of `m` on the stack. -/
abbrev Gives (code : Stretch) (pc' : Nat) (rts : List Var) (m : Eval W Var) : Prop :=
  S.Does code pc' rts rts m (Value pc' rts)

end Setting

section

variable {S : Setting W} {c : Stretch} {cs : List Stretch} {n pc pc' pc1 : Nat} {stack rts : List Var}
  {m : Eval W Var} {st : Store W} {temp v w : Var} {good : α → Store W → Config W → Prop}

/-! ## Rules -/

/-- A value is computed, and the code behind it goes on with that on the stack. -/
theorem Setting.Does.eval {base : List Var} {f : Var → Eval W α} (hc : ∀ p, S.Does c p stack base m (Value p base))
    (hcs : (Stretch.all cs).Forward) (hover : Over base rts)
    (hf : ∀ v, v.ordinary = true → S.Does (.all cs) pc' (v :: base) rts (f v) good) :
    S.Does (.all (c :: cs)) pc' stack rts (m >>= f) good := by
  rintro n pc st temp ⟨p, hp, hrest⟩ hlt hst
  obtain ⟨J, rfl, hJ⟩ := hover
  refine .bind (hc p n pc st temp hp (Nat.lt_of_le_of_lt (hcs p pc' hrest) hlt) hst) hJ ?_
  rintro v st' _ hst' ⟨hv, temp', rfl⟩
  exact hf v hv n p st' temp' hrest hlt hst'

/-- An operator that is one opcode. -/
theorem does_op {op : Opcode} {ans : Answer} (hans : ans.Ordinary)
    (hop : ∀ st : Store W, ∀ p temp, runOpcodeOf S.host S.bc S.lits (st.machine p stack temp) op 0 =
      some ((st.machine p stack temp).next S.host (ans.push S.host.debug ⟨p, rts, st.env⟩))) :
    S.Does (opAt S.bc op) pc' stack rts (give S.host ans) (Value pc' rts) := by
  intro n pc st temp hat hlt hst
  exact (carries_give S.hostSane hst hans ((step_op hat).trans (hop st pc' temp))).value

/-- An operator that is one extended opcode. -/
theorem does_extended {eop : ExtendedOpcode} {ans : Answer} (hans : ans.Ordinary)
    (hop : ∀ st : Store W, ∀ p temp, runExtendedOp S.host S.bc (st.machine p stack temp) eop =
      some ((st.machine p stack temp).next S.host (ans.push S.host.debug ⟨p, rts, st.env⟩))) :
    S.Does (extendedAt S.bc eop) pc' stack rts (give S.host ans) (Value pc' rts) := by
  intro n pc st temp hat hlt hst
  exact (carries_give S.hostSane hst hans ((step_extended hat).trans (hop st pc' temp))).value

/-- The last stretch. -/
theorem Setting.Does.last {m : Eval W α} (h : S.Does c pc' stack rts m good) :
    S.Does (.all [c]) pc' stack rts m good := by
  rintro n pc st temp ⟨p, hp, rfl⟩ hlt hst
  exact h n pc st temp hp hlt hst

end

/-! ## Opcodes with a number in them -/

theorem opcodeOf_number {num : Int32} (h : inOptimNumRange num.toInt = true) :
    ∃ k, opcodeOf (optimNumToOpcode num.toInt) = some (.optimNumStart, k) ∧
      Int32.ofInt (k + optimNumLow) = num := by
  obtain ⟨hlow, hhigh⟩ := of_decide_eq_true h
  simp only [optimNumLow, optimNumHi] at hlow hhigh
  have hnat : (optimNumToOpcode num.toInt).toNat = (113 + num.toInt - optimNumLow).toNat := by
    rw [optimNumToOpcode, UInt8.toNat_ofNat', optimNumLow]
    omega
  have hbyte : Opcode.optimNumStart.byte ≤ optimNumToOpcode num.toInt := by
    rw [UInt8.le_iff_toNat_le, hnat, optimNumLow]
    show (113 : Nat) ≤ _
    omega
  refine ⟨(optimNumToOpcode num.toInt - Opcode.optimNumStart.byte).toNat, ?_, ?_⟩
  · rw [opcodeOf, if_pos hbyte]
  · rw [UInt8.toNat_sub_of_le _ _ hbyte, hnat]
    have hnum : (((113 + num.toInt - optimNumLow).toNat - Opcode.optimNumStart.byte.toNat : Nat) : Int) + optimNumLow =
        num.toInt := by
      rw [show Opcode.optimNumStart.byte.toNat = 113 from rfl, optimNumLow]
      omega
    rw [hnum, Int32.ofInt_toInt]

theorem opcodeOf_ready (op : Opcode) (hop : op = .push ∨ op = .put) {slot : Nat} (h : slot < numReadyVars) :
    opcodeOf (op.byte + UInt8.ofNat slot) = some (op, slot) := by
  -- there are as many ready variables as bytes between the opcodes
  have hall : ∀ i : Fin 32, opcodeOf (Opcode.push.byte + UInt8.ofNat i) = some (.push, i.val) ∧
      opcodeOf (Opcode.put.byte + UInt8.ofNat i) = some (.put, i.val) := by decide
  obtain ⟨hpush, hput⟩ := hall ⟨slot, h⟩
  rcases hop with rfl | rfl
  · exact hpush
  · exact hput

section

variable {S : Setting W} {n pc pc' : Nat} {rts : List Var} {st : Store W} {temp v : Var}

/-! ## Values -/

theorem step_number {num : Int32} (hnum : inOptimNumRange num.toInt = true)
    (h : numberAt S.bc num.toInt pc pc') :
    S.step (.run (st.machine pc rts temp)) = some (.run (st.machine pc' (.int num :: rts) temp)) := by
  obtain ⟨k, hop, hk⟩ := opcodeOf_number hnum
  rw [Setting.step, step_byte h hop, ← hk]
  rfl

/-- `OP_IMM`, which may take the `OP_POP` behind it, too. -/
theorem leads_imm (h : Stretch.all [opAt S.bc .imm, literalAt S.bc S.lits v] pc pc')
    (hlt : pc' < S.bc.vector.length) :
    Leads S.step 0 (.run (st.machine pc rts temp)) (.run (st.machine pc' (v :: rts) temp)) := by
  obtain ⟨p, hop, _, ⟨slot, hslot, hread, hpc'⟩, rfl⟩ := h
  obtain ⟨b, hb⟩ : ∃ b, S.bc.vector[pc']? = some b := ⟨_, List.getElem?_eq_getElem hlt⟩
  have hstep : S.step (.run (st.machine pc rts temp)) =
      (opImm S.bc S.lits ⟨p, rts, st.env⟩).map ((st.machine p rts temp).next S.host) := step_op hop
  rw [hpc'] at hb
  by_cases hpop : b = Opcode.pop.byte
  · -- the value is not pushed at all: the states meet behind the `OP_POP`
    have himm : S.step (.run (st.machine pc rts temp)) = some (.run (st.machine (pc' + 1) rts temp)) := by
      rw [hstep, opImm, hb, hpc']
      show (if b = Opcode.pop.byte then _ else _ : Option Next).map _ = _
      rw [if_pos hpop]
      rfl
    have hat : opAt S.bc .pop pc' (pc' + 1) := ⟨by rw [hpc', hb, hpop], rfl⟩
    have hskip : S.step (.run (st.machine pc' (v :: rts) temp)) = some (.run (st.machine (pc' + 1) rts temp)) :=
      step_op hat
    exact .join himm hskip
  · refine (Leads.one ?_).weaken
    rw [hstep, opImm, hb]
    show (if b = Opcode.pop.byte then _ else _ : Option Next).map _ = _
    rw [if_neg hpop, readOperand_at ⟨hread, hpc'⟩]
    show ((S.lits[slot]?).bind _ : Option Next).map _ = _
    rw [hslot]
    rfl

theorem gives_literal : S.Gives (literalCode S.bc S.lits v) pc' rts (pure v) := by
  intro n pc st temp h hlt hst
  have himm : Stretch.all [opAt S.bc .imm, literalAt S.bc S.lits v] pc pc' →
      S.Carries n (.run (st.machine pc rts temp)) (pure v) st rts (Value pc' rts) := by
    intro h
    have hv : v.ordinary = true := by
      obtain ⟨_, -, _, ⟨slot, hslot, -⟩, -⟩ := h
      exact S.literals.getElem? hslot
    exact .before (leads_imm h hlt) (.pure hst ⟨hv, temp, rfl⟩)
  unfold literalCode at h
  split at h
  · split at h
    next hnum => exact .step (step_number hnum h) (.pure hst ⟨rfl, temp, rfl⟩)
    next => exact himm h
  · exact himm h

/-- A number, where the evaluator has a value of its own. -/
theorem carries_number {m : Eval W α} {good : α → Store W → Config W → Prop} (num : Int32)
    (hnum : inOptimNumRange num.toInt = true) {p : Nat} (h : numberAt S.bc num.toInt pc p) {stack : List Var}
    (hm : S.Carries n (.run (st.machine p (.int num :: stack) temp)) m st rts good) :
    S.Carries n (.run (st.machine pc stack temp)) m st rts good :=
  .step (step_number hnum h) hm

/-! ## Variables -/

theorem carries_pushVar (hst : st.Sane S.sane) (slot p : Nat) :
    S.Carries n ((st.machine p rts temp).next S.host (pushVar S.host.debug slot ⟨pc', rts, st.env⟩))
      (getVar S.host slot) st rts (Value pc' rts) := by
  refine .get ?_
  unfold pushVar
  dsimp only
  cases hvar : st.env[slot]? with
  | none => exact .some ⟨hst, rfl⟩ (.refl _)
  | some v =>
      have hv : v.ordinary = true := hst.env.getElem? hvar
      cases v with
      | none => exact (carries_fail S.hostSane hst .eVarnf _ ⟨rfl, rfl⟩).value
      | _ => exact .pure hst ⟨hv, temp, rfl⟩

/-- `OP_PUSH` and `OP_G_PUSH`. -/
theorem gives_id (slot : Nat) : S.Gives (varOpAt S.bc .push slot) pc' rts (getVar S.host slot) := by
  intro n pc st temp h hlt hst
  unfold varOpAt at h
  split at h
  · obtain ⟨p, hop, _, hslot, rfl⟩ := h
    have hstep : S.step (.run (st.machine pc rts temp)) = some ((st.machine p rts temp).next S.host
        (pushVar S.host.debug slot ⟨pc', rts, st.env⟩)) := by
      rw [Setting.step, step_byte hop (opcodeOf_byte .gPush)]
      show (opGPush S.host.debug S.bc ⟨p, rts, st.env⟩).map _ = _
      rw [opGPush, readOperand_at hslot]
      rfl
    exact .step hstep (carries_pushVar hst slot p)
  · next hready =>
      exact .step (step_byte h (opcodeOf_ready .push (.inl rfl) (Nat.lt_of_not_le hready)))
        (carries_pushVar hst slot pc')

/-- An assignment to a variable. -/
def Store.assign (st : Store W) (slot : Nat) (v : Var) : Store W := { st with env := st.env.set slot v }

theorem Store.Sane.assign {sane : W → Prop} (hst : st.Sane sane) (hv : v.ordinary = true) (slot : Nat) :
    (st.assign slot v).Sane sane := ⟨hst.env.set hv slot, hst.world⟩

theorem Carries.assign {m : Eval W α} {good : α → Store W → Config W → Prop} {slot : Nat} {c : Config W}
    (h : S.Carries n c m (st.assign slot v) rts good) :
    S.Carries n c (setVar slot v >>= fun _ => m) st rts good := h

/-- `OP_PUT`, which may take the `OP_POP` behind it, too, and `OP_G_PUT`. -/
theorem leads_put {slot : Nat} (h : varOpAt S.bc .put slot pc pc') (hlt : pc' < S.bc.vector.length) :
    Leads S.step 0 (.run (st.machine pc (v :: rts) temp))
      (.run ((st.assign slot v).machine pc' (v :: rts) temp)) := by
  unfold varOpAt at h
  split at h
  · obtain ⟨p, hop, _, hslot, rfl⟩ := h
    refine (Leads.one ?_).weaken
    rw [Setting.step, step_byte hop (opcodeOf_byte .gPut)]
    show (opGPut S.bc ⟨p, v :: rts, st.env⟩).map _ = _
    rw [opGPut, readOperand_at hslot]
    rfl
  · next hready =>
      obtain ⟨b, hb⟩ : ∃ b, S.bc.vector[pc']? = some b := ⟨_, List.getElem?_eq_getElem hlt⟩
      have hstep : S.step (.run (st.machine pc (v :: rts) temp)) =
          (opPut S.bc slot ⟨pc', v :: rts, st.env⟩).map ((st.machine pc' (v :: rts) temp).next S.host) :=
        step_byte h (opcodeOf_ready .put (.inr rfl) (Nat.lt_of_not_le hready))
      rw [opPut, hb] at hstep
      by_cases hpop : b = Opcode.pop.byte
      · -- the value is popped at once: the states meet behind the `OP_POP`
        have hput : S.step (.run (st.machine pc (v :: rts) temp)) =
            some (.run ((st.assign slot v).machine (pc' + 1) rts temp)) := by
          rw [hstep]
          show (if b = Opcode.pop.byte then _ else _ : Option Next).map _ = _
          rw [if_pos hpop]
          rfl
        have hat : opAt S.bc .pop pc' (pc' + 1) := ⟨by rw [hb, hpop], rfl⟩
        have hskip : S.step (.run ((st.assign slot v).machine pc' (v :: rts) temp)) =
            some (.run ((st.assign slot v).machine (pc' + 1) rts temp)) := step_op hat
        exact .join hput hskip
      · refine (Leads.one ?_).weaken
        rw [hstep]
        show (if b = Opcode.pop.byte then _ else _ : Option Next).map _ = _
        rw [if_neg hpop]
        rfl

/-! ## Jumps and the stack -/

theorem step_pop (h : opAt S.bc .pop pc pc') :
    S.step (.run (st.machine pc (v :: rts) temp)) = some (.run (st.machine pc' rts temp)) := step_op h

theorem step_jump {target : Nat} (h : Stretch.all [opAt S.bc .jump, labelAt S.bc target] pc pc') :
    S.step (.run (st.machine pc rts temp)) = some (.run (st.machine target rts temp)) := by
  obtain ⟨p, hop, _, hlab, rfl⟩ := h
  rw [Setting.step, step_op hop]
  show (opJump S.bc ⟨p, rts, st.env⟩).map _ = _
  rw [opJump, readOperand_at hlab]
  rfl

/-- `OP_IF`, `OP_EIF`, `OP_WHILE` and `OP_IF_QUES`. -/
theorem step_test {op : Opcode} (hop : op = .if ∨ op = .eif ∨ op = .while ∨ op = .ifQues) {target : Nat}
    (h : Stretch.all [opAt S.bc op, labelAt S.bc target] pc pc') :
    S.step (.run (st.machine pc (v :: rts) temp)) =
      some (.run (st.machine (if isTrue v then pc' else target) rts temp)) := by
  obtain ⟨p, hat, _, hlab, rfl⟩ := h
  have hrun : S.step (.run (st.machine pc (v :: rts) temp)) =
      (doTestOp S.bc ⟨p, v :: rts, st.env⟩).map ((st.machine p (v :: rts) temp).next S.host) := by
    rw [Setting.step, step_op hat]
    rcases hop with rfl | rfl | rfl | rfl <;> rfl
  rw [hrun, doTestOp]
  show ((readOperand S.bc S.bc.numbytesLabel ⟨p, rts, st.env⟩).bind _ : Option Next).map _ = _
  rw [readOperand_at hlab]
  show some (Machine.next S.host _ (.opcode (if isTrue v then _ else _))) = _
  split <;> rfl

/-- `OP_AND` and `OP_OR`. -/
theorem step_short {op : Opcode} {stop : Bool} (hop : op = .and ∧ stop = false ∨ op = .or ∧ stop = true)
    {target : Nat} (h : Stretch.all [opAt S.bc op, labelAt S.bc target] pc pc') :
    S.step (.run (st.machine pc (v :: rts) temp)) =
      some (.run (if isTrue v = stop then st.machine target (v :: rts) temp else st.machine pc' rts temp)) := by
  obtain ⟨p, hat, _, hlab, rfl⟩ := h
  have hrun : S.step (.run (st.machine pc (v :: rts) temp)) =
      (opShort S.bc stop ⟨p, v :: rts, st.env⟩).map ((st.machine p (v :: rts) temp).next S.host) := by
    rw [Setting.step, step_op hat]
    rcases hop with ⟨rfl, rfl⟩ | ⟨rfl, rfl⟩ <;> rfl
  rw [hrun, opShort, readOperand_at hlab]
  show some (Machine.next S.host _ (.opcode (if isTrue v = stop then _ else _))) = _
  split <;> rfl

/-! ## Operators -/

/-- An operator with two operands. -/
theorem does_binary (kind : BinaryKind) {v w : Var} :
    S.Does (kind.codeAt S.bc) pc' (w :: v :: rts) rts (give S.host (kind.answer S.host v w)) (Value pc' rts) := by
  have hans := kind.ordinary S.host v w
  have harith : ∀ (st : Store W) p temp (op : ArithOp),
      (st.machine p (w :: v :: rts) temp).plain S.host (opArith S.host.debug S.host.floats op) =
        some ((st.machine p (w :: v :: rts) temp).next S.host
          ((arithAnswer S.host.floats op v w).push S.host.debug ⟨p, rts, st.env⟩)) := by
    intro st p temp op
    exact congrArg (Option.map _) (opArith_eq op)
  cases kind with
  | exp => exact does_extended hans fun _ _ _ => rfl
  | minus => exact does_op hans fun st p temp => harith st p temp .minus
  | times => exact does_op hans fun st p temp => harith st p temp .mult
  | divide => exact does_op hans fun st p temp => harith st p temp .div
  | mod => exact does_op hans fun st p temp => harith st p temp .mod
  | _ => exact does_op hans fun _ _ _ => rfl

theorem does_unaryMinus {v : Var} :
    S.Does (opAt S.bc .unaryMinus) pc' (v :: rts) rts (give S.host (unaryMinusAnswer v)) (Value pc' rts) :=
  does_op (unaryMinus_ordinary v) fun _ _ _ => congrArg (Option.map _) opUnaryMinus_eq

theorem does_rangeRef {v i j : Var} (hv : v.ordinary = true) :
    S.Does (opAt S.bc .rangeRef) pc' (j :: i :: v :: rts) rts (give S.host (rangeRefAnswer v i j))
      (Value pc' rts) :=
  does_op (rangeRefAnswer_ordinary hv i j) fun _ _ _ => congrArg (Option.map _) opRangeRef_eq

/-- An argument is added to those before it. -/
theorem does_arg (kind : ArgKind) (list : Option Var) (hlist : ∀ w ∈ list, w.ordinary = true) {v : Var}
    (hv : v.ordinary = true) :
    S.Does (argCode S.bc list.isNone kind) pc' (v :: (list.toList ++ rts)) rts
      (give S.host (argAnswer kind list v)) (Value pc' rts) := by
  have hans := argAnswer_ordinary kind hlist hv
  cases kind with
  | normal =>
      cases list with
      | none => exact does_op hans fun _ _ _ => congrArg (Option.map _) opMakeSingletonList_eq
      | some w => exact does_op hans fun _ _ _ => congrArg (Option.map _) opListAddTail_eq
  | splice =>
      cases list with
      | none => exact does_op hans fun _ _ _ => rfl
      | some w => exact does_op hans fun _ _ _ => rfl

/-- `OP_GET_PROP`. -/
theorem does_getProp {v w : Var} :
    S.Does (opAt S.bc .getProp) pc' (w :: v :: rts) rts (getPropValue S.host v w) (Value pc' rts) := by
  intro n pc st temp hat hlt hst
  exact .get (carries_give S.hostSane hst (getPropAnswer_ordinary S.hostSane hst.world v w) (step_op hat)).value

/-- `OP_CALL_VERB`. -/
theorem does_callVerb {v w x : Var} (hx : x.ordinary = true) :
    S.Does (opAt S.bc .callVerb) pc' (x :: w :: v :: rts) rts (callVerb S.host v w x) (Value pc' rts) := by
  intro n pc st temp hat hlt hst
  obtain ⟨hreply, hworld⟩ := callVerbReply_ordinary S.hostSane hst.world v w hx
  have hst' : Store.Sane S.sane ⟨st.env, (callVerbReply S.host st.world v w x).2⟩ := ⟨hst.env, hworld⟩
  exact .get (.set (.step (step_op hat) (carries_reply S.hostSane hst' hreply)))

/-- `OP_BI_FUNC_CALL`. -/
theorem does_biFuncCall {func : Nat} (hfunc : func < 256) {x : Var} (hx : x.ordinary = true) :
    S.Does (.all [opAt S.bc .biFuncCall, byteAt S.bc (UInt8.ofNat func)]) pc' (x :: rts) rts
      (callBuiltIn S.host func x) (Value pc' rts) := by
  rintro n pc st temp ⟨p, hop, _, hbyte, rfl⟩ hlt hst
  obtain ⟨hreply, hworld⟩ := callBiFuncReply_ordinary S.hostSane hst.world func hx
  have hst' : Store.Sane S.sane ⟨st.env, (callBiFuncReply S.host st.world func x).2⟩ := ⟨hst.env, hworld⟩
  have hstep : S.step (.run (st.machine pc (x :: rts) temp)) =
      some ((Store.machine ⟨st.env, (callBiFuncReply S.host st.world func x).2⟩ pc' rts temp).reply S.host
        (callBiFuncReply S.host st.world func x).1) := by
    have hnum : (UInt8.ofNat func).toNat = func := by
      rw [UInt8.toNat_ofNat']
      exact Nat.mod_eq_of_lt hfunc
    rw [Setting.step, step_op hop]
    show opBiFuncCall S.host S.bc (st.machine p (x :: rts) temp) = _
    rw [opBiFuncCall, machine_frame, readOperand_byte hbyte, hnum]
    rfl
  exact .get (.set (.step hstep (carries_reply S.hostSane hst' hreply)))

end

end Waverous
