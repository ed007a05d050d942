import Waverous.Lib.Machines
import Waverous.Ordinary
import Waverous.CodeStands

/-! # Where the interpreter comes to — `execute.c`

    The interpreter carries a computation of the tree out when it comes to a state that stands for
    its result.  A value is on the stack then, and an exception is about to be handed to what is
    around; whatever an expression has left on the stack by then is passed over. -/

namespace Waverous

open Machines
open ActivStack (hasHandler popHandlers codeOf Reason)

variable {W : Type} {α β : Type}

/-! ## Values from outside -/

def Raise.Ordinary (r : Raise) : Prop := r.code.ordinary = true ∧ r.value.ordinary = true

/-- A reply without markers. -/
def Reply.Ordinary : Reply → Prop
  | .value v => v.ordinary = true
  | .raise r | .unwound r => r.Ordinary
  | .error _ | .killed => True

structure Exception.Ordinary (exc : Exception) : Prop where
  raise : exc.raise.Ordinary
  traceback : exc.traceback.ordinary = true

theorem Exception.Ordinary.value {exc : Exception} (h : exc.Ordinary) : exc.value.ordinary = true :=
  ordinary_list.mpr (.cons h.raise.1 (.cons rfl (.cons h.raise.2 (.cons h.traceback .nil))))

/-- Markers of handlers do not leave the stack: in a `sane` world, what is given values gives values
    and leaves a sane world. -/
structure Host.Sane (host : Host W) (sane : W → Prop) : Prop where
  traceback : ∀ w, sane w → (host.traceback w).1.ordinary = true ∧ sane (host.traceback w).2
  getProp : ∀ w oid name v, sane w → host.getProp w oid name = .ok v → v.ordinary = true
  putProp : ∀ w oid name v, sane w → v.ordinary = true → sane (host.putProp w oid name v).2
  callVerb : ∀ w oid name l, sane w → Waverous.Ordinary l →
    (host.callVerb w oid name l).1.Ordinary ∧ sane (host.callVerb w oid name l).2
  callBiFunc : ∀ w func l, sane w → Waverous.Ordinary l →
    (host.callBiFunc w func l).1.Ordinary ∧ sane (host.callBiFunc w func l).2

section

variable {W : Type} {host : Host W} {sane : W → Prop} {w : W} {v x : Var}

theorem getPropAnswer_ordinary (hhost : host.Sane sane) (hw : sane w) (obj name : Var) :
    (getPropAnswer host w obj name).Ordinary := by
  unfold getPropAnswer
  split
  · split
    · split
      next hprop => exact ordinary_value (hhost.getProp w _ _ _ hw hprop)
      next => exact ordinary_error _
    · exact ordinary_error _
  · exact ordinary_error _

theorem putPropAnswer_ordinary (hhost : host.Sane sane) (hw : sane w) (obj name : Var) (hv : v.ordinary = true) :
    (putPropAnswer host w obj name v).1.Ordinary ∧ sane (putPropAnswer host w obj name v).2 := by
  unfold putPropAnswer
  split
  next oid name =>
    split
    · have hput := hhost.putProp w oid name v hw hv
      split
      next heq => exact ⟨ordinary_value hv, by rwa [heq] at hput⟩
      next heq => exact ⟨ordinary_error _, by rwa [heq] at hput⟩
    · exact ⟨ordinary_error _, hw⟩
  next => exact ⟨ordinary_error _, hw⟩

theorem callVerbReply_ordinary (hhost : host.Sane sane) (hw : sane w) (obj verb : Var) (hx : x.ordinary = true) :
    (callVerbReply host w obj verb x).1.Ordinary ∧ sane (callVerbReply host w obj verb x).2 := by
  unfold callVerbReply
  split
  · split
    · exact hhost.callVerb w _ _ _ hw (ordinary_list.mp hx)
    · exact ⟨trivial, hw⟩
  · exact ⟨trivial, hw⟩

theorem callBiFuncReply_ordinary (hhost : host.Sane sane) (hw : sane w) (func : Nat) (hx : x.ordinary = true) :
    (callBiFuncReply host w func x).1.Ordinary ∧ sane (callBiFuncReply host w func x).2 := by
  unfold callBiFuncReply
  split
  · exact hhost.callBiFunc w func _ hw (ordinary_list.mp hx)
  · exact ⟨trivial, hw⟩

end

/-- All variables have values, and the world is sane. -/
structure Store.Sane (sane : W → Prop) (st : Store W) : Prop where
  env : Waverous.Ordinary st.env
  world : sane st.world

/-! ## States -/

/-- The machine with the variables and the world of a store. -/
def Store.machine (st : Store W) (pc : Nat) (rts : List Var) (temp : Var) : Machine W :=
  ⟨⟨pc, rts, st.env⟩, temp, st.world⟩

section

variable (st : Store W) (pc : Nat) (rts : List Var) (temp : Var)

@[simp] theorem machine_frame : (st.machine pc rts temp).frame = ⟨pc, rts, st.env⟩ := rfl

theorem machine_pc : (st.machine pc rts temp).frame.pc = pc := rfl

theorem machine_rts : (st.machine pc rts temp).frame.rts = rts := rfl

end

/-- An exception that has been raised. -/
def Machine.raised (host : Host W) (exc : Exception) (m : Machine W) : Config W :=
  if hasHandler exc.raise.code 0 m.frame.rts || host.outer exc.raise.code then
    .unwind .raise exc.value m
  else .unwind .uncaught zero m

section

variable (host : Host W) (sane : W → Prop)

/-- There is no result: an exception, a kill or a trap. -/
def Stops (rts : List Var) (st : Store W) : Stop → Config W → Prop
  | .raised exc, c => exc.Ordinary ∧ ∃ pc temp, c = (st.machine pc rts temp).raised host exc
  | .killed, c => ∃ m, c = .unwind .abort zero m ∧ m.frame.rtEnv = st.env ∧ m.world = st.world
  | .trapped, c => c = .trapped

/-- A state that stands for what a computation has come to, with the stack `rts` below. -/
def Lands (rts : List Var) (good : α → Store W → Config W → Prop) (r : Except Stop α × Store W)
    (c : Config W) : Prop :=
  r.2.Sane sane ∧
    match r.1 with
    | .ok a => good a r.2 c
    | .error why => Stops host rts r.2 why c

end

section

variable (host : Host W) (bc : Bytecodes) (lits : List Var) (sane : W → Prop)

/-- From `c` the interpreter does what `m` does, or at least `n` steps if that needs more fuel. -/
def Carries (n : Nat) (c : Config W) (m : Eval W α) (st : Store W) (rts : List Var)
    (good : α → Store W → Config W → Prop) : Prop :=
  Follows (Config.step host bc lits) n c (m st) (Lands host sane rts good)

end

/-- The value is on the stack, before the code at `pc`. -/
def Value (pc : Nat) (rts : List Var) (v : Var) (st : Store W) (c : Config W) : Prop :=
  v.ordinary = true ∧ ∃ temp, c = .run (st.machine pc (v :: rts) temp)

/-- The same, with the register as it was. -/
def Kept (temp : Var) (pc : Nat) (rts : List Var) (v : Var) (st : Store W) (c : Config W) : Prop :=
  v.ordinary = true ∧ c = .run (st.machine pc (v :: rts) temp)

/-- The code before `pc` has been run. -/
def Behind (pc : Nat) (rts : List Var) (_ : Unit) (st : Store W) (c : Config W) : Prop :=
  ∃ temp, c = .run (st.machine pc rts temp)

section

variable {host : Host W} {bc : Bytecodes} {lits : List Var} {sane : W → Prop} {n : Nat} {c c' : Config W}
  {m : Eval W α} {f : α → Eval W β} {st : Store W} {rts J : List Var} {pc : Nat}
  {good good' : α → Store W → Config W → Prop} {good1 : β → Store W → Config W → Prop}

/-! ## Unwinding -/

theorem unwind_raise {why : Reason} {value : Var} {mach : Machine W} (hwhy : why ≠ .exit) :
    Config.step host bc lits (.unwind why value mach) =
      match popHandlers why (codeOf why value) value 0 mach.frame.rts with
      | some (pc, rts) => some (.run { mach with frame := { mach.frame with pc := pc, rts := rts } })
      | none => some (.left why value mach.frame.rtEnv mach.world) := by
  cases why with
  | exit => exact absurd rfl hwhy
  | _ => rfl

/-- What has no handler is passed over. -/
theorem unwind_over {why : Reason} {value : Var} {st : Store W} {rts rts' : List Var} (hwhy : why ≠ .exit)
    (h : popHandlers why (codeOf why value) value 0 rts = popHandlers why (codeOf why value) value 0 rts')
    (pc pc' : Nat) (temp : Var) :
    Leads (Config.step host bc lits) 0 (.unwind why value (st.machine pc rts temp))
      (.unwind why value (st.machine pc' rts' temp)) := by
  cases hpop : popHandlers why (codeOf why value) value 0 rts with
  | none =>
      refine Leads.join (v := .left why value st.env st.world) ?_ ?_
      · rw [unwind_raise hwhy, machine_rts, hpop]
        rfl
      · rw [unwind_raise hwhy, machine_rts, ← h, hpop]
        rfl
  | some p =>
      refine Leads.join (v := .run (st.machine p.1 p.2 temp)) ?_ ?_
      · rw [unwind_raise hwhy, machine_rts, hpop]
        rfl
      · rw [unwind_raise hwhy, machine_rts, ← h, hpop]
        rfl

theorem raised_found {exc : Exception} {st : Store W} {rts : List Var} {pc : Nat} {temp : Var}
    (h : (hasHandler exc.raise.code 0 rts || host.outer exc.raise.code) = true) :
    (st.machine pc rts temp).raised host exc = .unwind .raise exc.value (st.machine pc rts temp) := by
  rw [Machine.raised, machine_rts, if_pos h]

theorem raised_uncaught {exc : Exception} {st : Store W} {rts : List Var} {pc : Nat} {temp : Var}
    (h : ¬ (hasHandler exc.raise.code 0 rts || host.outer exc.raise.code) = true) :
    (st.machine pc rts temp).raised host exc = .unwind .uncaught zero (st.machine pc rts temp) := by
  rw [Machine.raised, machine_rts, if_neg h]

/-- An exception passes over what is no handler of it. -/
theorem raised_over {exc : Exception} {st : Store W} {rts rts' : List Var}
    (hhas : hasHandler exc.raise.code 0 rts = hasHandler exc.raise.code 0 rts')
    (hpop : ∀ why value, (why = .raise ∧ value = exc.value) ∨ why = .uncaught →
      popHandlers why (codeOf why value) value 0 rts = popHandlers why (codeOf why value) value 0 rts')
    (pc pc' : Nat) (temp : Var) :
    Leads (Config.step host bc lits) 0 ((st.machine pc rts temp).raised host exc)
      ((st.machine pc' rts' temp).raised host exc) := by
  unfold Machine.raised
  rw [machine_rts, machine_rts, hhas]
  -- whether a frame below has a handler does not depend on the stack of this one
  split
  · exact unwind_over (fun h => by cases h) (hpop _ _ (.inl ⟨rfl, rfl⟩)) pc pc' temp
  · exact unwind_over (fun h => by cases h) (hpop _ _ (.inr rfl)) pc pc' temp

/-- What an expression has left on the stack is passed over. -/
theorem Stops.lower {why : Stop} (h : Stops host (J ++ rts) st why c) (hJ : Unmarked J) :
    ∃ c', Stops host rts st why c' ∧ Leads (Config.step host bc lits) 0 c c' := by
  cases why with
  | killed => exact ⟨c, h, .refl c⟩
  | trapped => exact ⟨c, h, .refl c⟩
  | raised exc =>
      obtain ⟨hexc, pc, temp, rfl⟩ := h
      exact ⟨_, ⟨hexc, pc, temp, rfl⟩, raised_over (hasHandler_unmarked hJ _ _)
        (fun why value _ => popHandlers_unmarked hJ _ _ _ _) pc pc temp⟩

/-! ## Rules -/

theorem Carries.pure {a : α} (hst : st.Sane sane) (h : good a st c) :
    Carries host bc lits sane n c (Pure.pure a) st rts good := .some ⟨hst, h⟩ (.refl c)

/-- What comes after a computation. -/
def Eval.after (f : α → Eval W β) (r : Except Stop α × Store W) : Option (Except Stop β × Store W) :=
  match r.1 with
  | .ok a => f a r.2
  | .error why => some (.error why, r.2)

theorem eval_bind (m : Eval W α) (f : α → Eval W β) (st : Store W) : (m >>= f) st = (m st).bind (Eval.after f) := by
  show (m st).bind _ = _
  congr 1
  funext r
  obtain ⟨r, st'⟩ := r
  cases r <;> rfl

/-- One computation after the other, with more on the stack during the first. -/
theorem Carries.bind (h : Carries host bc lits sane n c m st (J ++ rts) good) (hJ : Unmarked J)
    (hf : ∀ a st' c', st'.Sane sane → good a st' c' → Carries host bc lits sane n c' (f a) st' rts good1) :
    Carries host bc lits sane n c (m >>= f) st rts good1 := by
  unfold Carries
  rw [eval_bind]
  refine Follows.bind h ?_
  rintro ⟨r, st'⟩ t ⟨hst, hgood⟩
  cases r with
  | ok a => exact hf a st' t hst hgood
  | error why =>
      -- `f` is not run, and what is left of the first computation is no handler
      obtain ⟨c', hstops, hleads⟩ := Stops.lower hgood hJ
      exact ⟨c', ⟨hst, hstops⟩, hleads⟩

/-- One computation after the other, with the same stack. -/
theorem Carries.seq (h : Carries host bc lits sane n c m st rts good)
    (hf : ∀ a st' c', st'.Sane sane → good a st' c' → Carries host bc lits sane n c' (f a) st' rts good1) :
    Carries host bc lits sane n c (m >>= f) st rts good1 :=
  .bind (J := []) h (fun _ hv => by cases hv) hf

theorem Carries.before {k : Nat} (h : Leads (Config.step host bc lits) k c c')
    (h' : Carries host bc lits sane n c' m st rts good) : Carries host bc lits sane n c m st rts good :=
  Follows.before h h'

/-- After one step. -/
theorem Carries.step (h : c.step host bc lits = some c')
    (h' : Carries host bc lits sane n c' m st rts good) : Carries host bc lits sane n c m st rts good :=
  .before (.one h) h'

/-- After one step, which is counted. -/
theorem Carries.tick (h : c.step host bc lits = some c') (h' : Carries host bc lits sane (n - 1) c' m st rts good) :
    Carries host bc lits sane n c m st rts good :=
  Follows.tick h h'

/-- The interpreter goes on from where a result is. -/
theorem Carries.onward (h : Carries host bc lits sane n c m st rts good)
    (hon : ∀ a st' c', good a st' c' → ∃ c'', good' a st' c'' ∧ Leads (Config.step host bc lits) 0 c' c'') :
    Carries host bc lits sane n c m st rts good' := by
  refine Follows.onward h ?_
  rintro ⟨r, st'⟩ t ⟨hst, hgood⟩
  cases r with
  | ok a =>
      obtain ⟨c'', hgood', hlead⟩ := hon a st' t hgood
      exact ⟨c'', ⟨hst, hgood'⟩, hlead⟩
  | error why => exact ⟨t, ⟨hst, hgood⟩, .refl t⟩

theorem Carries.weaken (h : Carries host bc lits sane n c m st rts good)
    (hsub : ∀ a st' c', good a st' c' → good' a st' c') : Carries host bc lits sane n c m st rts good' :=
  h.onward fun a st' c' hgood => ⟨c', hsub a st' c' hgood, .refl c'⟩

/-- The store is asked for. -/
theorem Carries.get {f : Store W → Eval W α} (h : Carries host bc lits sane n c (f st) st rts good) :
    Carries host bc lits sane n c (MonadState.get >>= f) st rts good := h

/-- The store is changed. -/
theorem Carries.set {st' : Store W} {m : Eval W α} (h : Carries host bc lits sane n c m st' rts good) :
    Carries host bc lits sane n c (MonadStateOf.set st' >>= fun _ => m) st rts good := h

theorem Carries.value {m : Eval W Var} {temp : Var}
    (h : Carries host bc lits sane n c m st rts (Kept temp pc rts)) :
    Carries host bc lits sane n c m st rts (Value pc rts) :=
  h.weaken fun _ _ _ hkept => ⟨hkept.1, temp, hkept.2⟩

end

/-! ## Opcodes -/

theorem opcodeOf_byte (op : Opcode) : opcodeOf op.byte = some (op, 0) := by
  cases op <;> decide

theorem extendedOf_byte (eop : ExtendedOpcode) : extendedOf eop.byte = some eop := by
  cases eop <;> decide

section

variable {host : Host W} {bc : Bytecodes} {lits : List Var} {sane : W → Prop} {n : Nat} {c c' : Config W}
  {st : Store W} {rts : List Var} {pc pc' : Nat} {temp : Var}

/-- The step at a byte. -/
theorem step_byte {b : UInt8} {op : Opcode} {k : Nat} (h : byteAt bc b pc pc') (hop : opcodeOf b = some (op, k)) :
    Config.step host bc lits (.run (st.machine pc rts temp)) =
      runOpcodeOf host bc lits (st.machine pc' rts temp) op k := by
  obtain ⟨hb, rfl⟩ := h
  show Machine.round host bc lits _ = _
  rw [Machine.round, machine_pc, hb]
  show ((opcodeOf b).bind _) = _
  rw [hop]
  rfl

theorem step_op {op : Opcode} (h : opAt bc op pc pc') :
    Config.step host bc lits (.run (st.machine pc rts temp)) =
      runOpcodeOf host bc lits (st.machine pc' rts temp) op 0 := step_byte h (opcodeOf_byte op)

theorem step_extended {eop : ExtendedOpcode} (h : extendedAt bc eop pc pc') :
    Config.step host bc lits (.run (st.machine pc rts temp)) =
      runExtendedOp host bc (st.machine pc' rts temp) eop := by
  obtain ⟨p, hop, _, ⟨heop, rfl⟩, rfl⟩ := h
  rw [step_op hop]
  show runExtendedByte host bc _ = _
  rw [runExtendedByte, machine_pc, heop]
  show ((extendedOf eop.byte).bind _) = _
  rw [extendedOf_byte]
  rfl

theorem readOperand_at {size value : Nat} {env : List Var} (h : operandAt bc size value pc pc') :
    readOperand bc size ⟨pc, rts, env⟩ = some (value, ⟨pc', rts, env⟩) := by
  obtain ⟨hread, rfl⟩ := h
  rw [readOperand, hread]
  rfl

theorem readOperand_byte {b : UInt8} {env : List Var} (h : byteAt bc b pc pc') :
    readOperand bc 1 ⟨pc, rts, env⟩ = some (b.toNat, ⟨pc', rts, env⟩) := by
  obtain ⟨hb, rfl⟩ := h
  refine readOperand_at ⟨?_, rfl⟩
  show (bc.vector[pc]?).bind _ = _
  rw [hb]
  rfl

/-! ## Results -/

theorem raise_run {α : Type} (r : Raise) (st : Store W) :
    (raise host r : Eval W α) st = some (.error (.raised ⟨r, (host.traceback st.world).1⟩),
      { st with world := (host.traceback st.world).2 }) := rfl

/-- An exception is raised. -/
theorem carries_raise {α : Type} {good : α → Store W → Config W → Prop} (hhost : host.Sane sane)
    (hst : st.Sane sane) {r : Raise} (hr : r.Ordinary) :
    Carries host bc lits sane n ((st.machine pc rts temp).raise host r) (raise host r) st rts good := by
  obtain ⟨hlist, hworld⟩ := hhost.traceback _ hst.world
  unfold Carries
  rw [raise_run]
  exact .some ⟨⟨hst.env, hworld⟩, ⟨hr, hlist⟩, pc, temp, rfl⟩ (.refl _)

theorem ofError_ordinary (e : Error) : (Raise.ofError e).Ordinary := ⟨rfl, rfl⟩

/-- `PUSH_ERROR`. -/
theorem carries_fail (hhost : host.Sane sane) (hst : st.Sane sane) (e : Error) (m : Machine W)
    (hm : m.temp = temp ∧ m.world = st.world) :
    Carries host bc lits sane n (m.next host (pushError host.debug e ⟨pc, rts, st.env⟩)) (failWith host e) st rts
      (Kept temp pc rts) := by
  obtain ⟨rfl, hworld⟩ := hm
  unfold pushError failWith
  cases host.debug with
  | true =>
      have hraise : m.next host (.raise e ⟨pc, rts, st.env⟩) = (st.machine pc rts m.temp).raise host (.ofError e) := by
        show Machine.raise host ⟨_, _, m.world⟩ _ = _
        rw [hworld]
        rfl
      exact hraise ▸ carries_raise hhost hst (ofError_ordinary e)
  | false =>
      refine .pure hst ⟨rfl, ?_⟩
      show Config.run ⟨_, _, m.world⟩ = _
      rw [hworld]
      rfl

/-- The answer of an operator is pushed. -/
theorem carries_push (hhost : host.Sane sane) (hst : st.Sane sane) {ans : Answer} (hans : ans.Ordinary)
    (m : Machine W) (hm : m.temp = temp ∧ m.world = st.world) :
    Carries host bc lits sane n (m.next host (ans.push host.debug ⟨pc, rts, st.env⟩)) (give host ans) st rts
      (Kept temp pc rts) := by
  cases ans with
  | value v =>
      refine .pure hst ⟨hans v rfl, ?_⟩
      obtain ⟨rfl, hworld⟩ := hm
      show Config.run ⟨_, _, m.world⟩ = _
      rw [hworld]
      rfl
  | error e => exact carries_fail hhost hst e m hm
  | trap => exact .some ⟨hst, rfl⟩ (.refl _)

/-- The answer of an operator, after the step at its opcode. -/
theorem carries_give (hhost : host.Sane sane) (hst : st.Sane sane) {ans : Answer} (hans : ans.Ordinary)
    {pc1 : Nat} {rts1 : List Var} (hstep : c.step host bc lits =
      some ((st.machine pc1 rts1 temp).next host (ans.push host.debug ⟨pc, rts, st.env⟩))) :
    Carries host bc lits sane n c (give host ans) st rts (Kept temp pc rts) :=
  .step hstep (carries_push hhost hst hans _ ⟨rfl, rfl⟩)

/-- A call comes back. -/
theorem carries_reply (hhost : host.Sane sane) (hst : st.Sane sane) {reply : Reply} (hreply : reply.Ordinary) :
    Carries host bc lits sane n ((st.machine pc rts temp).reply host reply) (giveReply host reply) st rts
      (Value pc rts) := by
  cases reply with
  | value v => exact .pure hst ⟨hreply, temp, rfl⟩
  | error e => exact (carries_fail hhost hst e _ ⟨rfl, rfl⟩).value
  | raise r =>
      show Carries host bc lits sane n (if host.debug = true then _ else _) (if host.debug = true then _ else _) _ _ _
      split
      · exact carries_raise hhost hst hreply
      · exact .pure hst ⟨hreply.1, temp, rfl⟩
  | unwound r => exact carries_raise hhost hst hreply
  | killed => exact .some ⟨hst, _, rfl, rfl, rfl⟩ (.refl _)

end

end Waverous
