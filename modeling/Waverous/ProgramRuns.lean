import Waverous.StmtRuns

/-! # Programs — `code_gen.c`, `execute.c`

    What `generate_code` makes of a tree does what the tree means: the interpreter leaves the frame
    with the value, the exception or the kill that the tree comes to, with the same world, and if the
    tree comes to nothing, then the interpreter goes on for ever. -/

namespace Waverous

open Machines
open ActivStack (Reason)

variable {W : Type}

/-- How the frame of a program is left: a `break` or `continue` does not get so far. -/
def Leaves (host : Host W) (r : Except Stop Flow × Store W) (c : Config W) : Prop :=
  match r.1 with
  | .ok .normal => c = .left .return zero r.2.env r.2.world
  | .ok (.return v) => c = .left .return v r.2.env r.2.world
  | .ok (.break _) | .ok (.continue _) => False
  | .error (.raised exc) =>
      c = if host.outer exc.raise.code then .left .raise exc.value r.2.env r.2.world
        else .left .uncaught zero r.2.env r.2.world
  | .error .killed => c = .left .abort zero r.2.env r.2.world
  | .error .trapped => c = .trapped

section

variable {S : Setting W} {pc : Nat} {st : Store W} {temp value : Var} {why : Reason} {c : Config W}
  {r : Except Stop Flow × Store W}

/-- No handler is left on an empty stack. -/
theorem leaves_unwind (hwhy : why ≠ .exit) :
    Leads S.step 0 (.unwind why value (st.machine pc [] temp)) (.left why value st.env st.world) := by
  refine (Leads.one ?_).weaken
  rw [Setting.step, unwind_raise hwhy]
  rfl

theorem popHandlers_abort (code value : Var) (k : Nat) (rts : List Var) :
    ActivStack.popHandlers .abort code value k rts = none := by
  induction rts generalizing k with
  | nil => cases k <;> rfl
  | cons v rts ih =>
      cases k with
      | succ k => exact ih k
      | zero => cases v <;> exact ih 0

/-- From where a program ends, the frame is left. -/
theorem leaves_of_lands (hdone : opAt S.bc .done pc (pc + 1))
    (h : Lands S.host S.sane [] (EndsAt [] pc []) r c) : ∃ c', Leaves S.host r c' ∧ Leads S.step 0 c c' := by
  obtain ⟨r, st⟩ := r
  obtain ⟨-, h⟩ := h
  cases r with
  | ok flow =>
      cases flow with
      | normal =>
          obtain ⟨temp, rfl⟩ := h
          have hstep : S.step (.run (st.machine pc [] temp)) = some (.unwind .return zero (st.machine (pc + 1) [] temp)) :=
            step_op hdone
          exact ⟨_, rfl, .first hstep (leaves_unwind fun h => by cases h)⟩
      | «return» v =>
          obtain ⟨-, p, temp, rfl⟩ := h
          exact ⟨_, rfl, leaves_unwind fun h => by cases h⟩
      | «break» exit =>
          obtain ⟨loop, hloop, -⟩ := h
          cases leftLoop_mem hloop
      | «continue» exit =>
          obtain ⟨loop, hloop, -⟩ := h
          cases leftLoop_mem hloop
  | error why =>
      cases why with
      | trapped => exact ⟨c, h, .refl c⟩
      | killed =>
          -- a kill stops at no handler, whatever is left on the stack
          obtain ⟨m, rfl, henv, hworld⟩ := h
          refine ⟨.left .abort zero m.frame.rtEnv m.world, by rw [henv, hworld]; rfl, (Leads.one ?_).weaken⟩
          rw [Setting.step, unwind_raise (fun h => by cases h), popHandlers_abort]
      | raised exc =>
          obtain ⟨-, p, temp, rfl⟩ := h
          refine ⟨_, rfl, ?_⟩
          unfold Machine.raised
          rw [machine_rts, show ActivStack.hasHandler exc.raise.code 0 [] = false from rfl, Bool.false_or]
          split
          · exact leaves_unwind fun h => by cases h
          · exact leaves_unwind fun h => by cases h

/-- There is one way. -/
theorem Leaves.unique {host : Host W} {c' : Config W} (h : Leaves host r c) (h' : Leaves host r c') : c' = c := by
  obtain ⟨r, st⟩ := r
  cases r with
  | ok flow =>
      cases flow with
      | normal | «return» v => exact h'.trans h.symm
      | «break» exit | «continue» exit => exact h.elim
  | error why => cases why <;> exact h'.trans h.symm

theorem Leaves.last (h : Leaves S.host r c) : S.step c = none := by
  obtain ⟨r, st⟩ := r
  cases r with
  | ok flow =>
      cases flow with
      | normal | «return» v =>
          cases h
          rfl
      | «break» exit | «continue» exit => exact h.elim
  | error why =>
      cases why with
      | trapped | killed =>
          cases h
          rfl
      | raised exc =>
          obtain rfl : c = _ := h
          split <;> rfl

end

section

variable {S : Setting W} {stmts : StmtList} {pc : Nat} {st : Store W} {temp : Var} {c : Config W}

/-- A program whose code stands at the beginning of a vector halts when the tree comes to something,
    and where that says. -/
theorem halts_iff_exec (hvalid : stmts.Valid []) (hplain : stmts.Plain) (hstands : stmts.stands S.bc S.lits [] 0 0 pc)
    (hdone : opAt S.bc .done pc (pc + 1)) (hst : st.Sane S.sane) :
    Halts S.step (.run (st.machine 0 [] temp)) c ↔
      ∃ fuel r, execStmts S.host fuel stmts st = some r ∧ Leaves S.host r c := by
  have hlt : pc < S.bc.vector.length := (List.getElem?_eq_some_iff.mp hdone.1).1
  have hcarries : ∀ fuel, S.Carries fuel (.run (st.machine 0 [] temp)) (execStmts S.host fuel stmts) st []
      (EndsAt [] pc []) := fun fuel =>
    hvalid.runs hplain (fun _ h => by cases h) pc fuel 0 st temp (Nat.le_refl fuel) hstands hlt hst
  have hhalts : ∀ fuel r, execStmts S.host fuel stmts st = some r →
      ∃ c', Leaves S.host r c' ∧ Halts S.step (.run (st.machine 0 [] temp)) c' := by
    intro fuel r hr
    have hfollows : Follows _ _ _ (execStmts S.host fuel stmts st) _ := hcarries fuel
    rw [hr] at hfollows
    obtain ⟨c1, hlands, hlead⟩ := hfollows
    obtain ⟨c2, hleaves, hlead'⟩ := leaves_of_lands hdone hlands
    exact ⟨c2, hleaves, (hlead.then hlead').halts ⟨⟨0, rfl⟩, hleaves.last⟩⟩
  constructor
  · intro hc
    -- if the tree comes to nothing with any fuel, then the interpreter makes as many steps as there is fuel
    by_contra hnone
    have hruns : ∀ fuel, Runs S.step fuel (.run (st.machine 0 [] temp)) := by
      intro fuel
      have hfollows : Follows _ _ _ (execStmts S.host fuel stmts st) _ := hcarries fuel
      cases hr : execStmts S.host fuel stmts st with
      | none =>
          rw [hr] at hfollows
          exact hfollows
      | some r =>
          obtain ⟨c', hleaves, hc'⟩ := hhalts fuel r hr
          exact absurd ⟨fuel, r, hr, hc.unique hc' ▸ hleaves⟩ hnone
    exact not_halts_of_runs hruns hc
  · rintro ⟨fuel, r, hr, hleaves⟩
    obtain ⟨c', hleaves', hc'⟩ := hhalts fuel r hr
    exact hleaves.unique hleaves' ▸ hc'

end

/-! ## What the generator makes -/

section

variable {stmts : StmtList} {version : Nat} {names : List Str} {prog : Program}

/-- The vector and the literals of a program. -/
theorem generateCode_finished (hcode : generateCode stmts version names = some prog)
    (hfit : stmts.operandsFit initGstate = true) : ∃ fin, stmts.code (initState initGstate) = some ((), fin) ∧
      Finished fin prog.mainVector ∧ prog.literals = fin.gstate.literals := by
  obtain ⟨fin, bc, hrun, hfin⟩ := finished_of_fit hfit
  have hvector : stmtToCode stmts initGstate = some (bc, fin.gstate) := by
    show (stmts.code (initState initGstate)).bind _ = _
    rw [hrun]
    show (finishVector fin).bind _ = _
    rw [hfin.finish]
    rfl
  rw [generateCode, hvector] at hcode
  cases hcode
  exact ⟨fin, hrun, hfin, rfl⟩

theorem Var.PlainLiteral.ordinary {v : Var} (h : v.PlainLiteral) : v.ordinary = true := by
  cases v with
  | list _ | «catch» _ | «finally» _ => exact h.elim
  | _ => rfl

/-- The code of a program stands at the beginning of its vector, with its literals. -/
theorem generateCode_stands (hvalid : stmts.Valid []) (hplain : stmts.Plain)
    (hcode : generateCode stmts version names = some prog) (hfit : stmts.operandsFit initGstate = true) :
    prog.mainVector.numbytesStack = 1 ∧ Ordinary prog.literals ∧
      ∃ pc, stmts.stands prog.mainVector prog.literals [] 0 0 pc ∧ opAt prog.mainVector .done pc (pc + 1) := by
  obtain ⟨fin, hrun, hfin, hlits⟩ := generateCode_finished hcode hfit
  refine ⟨hfin.stackCount, ?_, hvalid.stands hplain (fun _ h => by cases h) hrun hfin (hlits ▸ List.prefix_rfl)⟩
  intro v hv
  rw [hlits] at hv
  exact (hvalid.literals hplain (fun _ h => by cases h) hrun hfin v hv).ordinary

variable {host : Host W} {sane : W → Prop} {st : Store W} {temp : Var} {c : Config W}

/-- Running what has been generated from a tree is running the tree: the frame is left with the value,
    the exception or the kill that the tree comes to, and with the variables and the world that it
    leaves; and if the tree comes to nothing with any fuel, then the interpreter goes on for ever. -/
theorem generateCode_halts_iff (hvalid : stmts.Valid []) (hplain : stmts.Plain)
    (hcode : generateCode stmts version names = some prog) (hfit : stmts.operandsFit initGstate = true)
    (hsmall : prog.mainVector.vector.length < 2 ^ 31) (hhost : host.Sane sane) (hst : st.Sane sane) :
    Halts (Config.step host prog.mainVector prog.literals) (.run (st.machine 0 [] temp)) c ↔
      ∃ fuel r, execStmts host fuel stmts st = some r ∧ Leaves host r c := by
  obtain ⟨hcells, hliterals, pc, hstands, hdone⟩ := generateCode_stands hvalid hplain hcode hfit
  let S : Setting W := ⟨host, prog.mainVector, prog.literals, sane, hhost, hliterals, hsmall, hcells⟩
  exact halts_iff_exec (S := S) hvalid hplain hstands hdone hst

end

/-! ### A program -/

/-- There is nothing outside the frame. -/
def emptyHost : Host Unit where
  floats := noFloats
  signed := true
  debug := true
  outer _ := false
  traceback w := (.list [], w)
  valid _ _ := false
  getProp _ _ _ := .error .ePropnf
  putProp w _ _ _ := (.error .ePropnf, w)
  callVerb w _ _ _ := (.error .eVerbnf, w)
  callBiFunc w _ _ := (.error .eInvarg, w)

theorem emptyHost_sane : emptyHost.Sane fun _ => True where
  traceback _ _ := ⟨rfl, trivial⟩
  getProp _ _ _ _ _ h := by cases h
  putProp _ _ _ _ _ _ := trivial
  callVerb _ _ _ _ _ _ := ⟨trivial, trivial⟩
  callBiFunc _ _ _ _ _ := ⟨trivial, trivial⟩

/-- `try for i in [1..3] {a, ?b = i} = {i}; if (a == 2) break; endif endfor finally x = `a / 0 ! ANY'; endtry
    while (1) return {a, b, x}; endwhile`. -/
def mixedProgram : StmtList :=
  let pattern := Scatter.cons .required 1 none (.cons .optional 2 (some (.id 0)) .nil)
  let round := StmtList.cons (.expr (.asgn (.scatter pattern) (.list (.cons .normal (.id 0) .nil))))
    (.cons (.cond (.cons (.binary .eq (.id 1) (.var (.int 2))) (.cons (.break (-1)) .nil) .nil) .nil) .nil)
  let caught := Expr.catch (.binary .divide (.id 1) (.var (.int 0))) .nil none
  let last := Expr.list (.cons .normal (.id 1) (.cons .normal (.id 2) (.cons .normal (.id 3) .nil)))
  .cons (.tryFinally (.cons (.range 0 (.var (.int 1)) (.var (.int 3)) round) .nil)
      (.cons (.expr (.asgn (.id 3) caught)) .nil))
    (.cons (.while (-1) (.var (.int 1)) (.cons (.return (some last)) .nil)) .nil)

theorem mixedProgram_valid : mixedProgram.Valid [] := by
  refine .cons (.tryFinally (.cons (.range .var .var (.cons (.expr (.asgnScatter (.target (.default .id .nil))
    (.list (.cons .id .nil)))) (.cons (.cond (.cons (.binary .id .var) (.cons (.break ?_) .nil) .nil) .nil) .nil))) .nil)
      (.cons (.expr (.asgn .id (.catch (.binary .id .var) .nil))) .nil))
    (.cons (.while .var (.cons (.return (.list (.cons .id (.cons .id (.cons .id .nil))))) .nil)) .nil)
  exact List.cons_ne_nil _ _

theorem mixedProgram_plain : mixedProgram.Plain := by
  simp [mixedProgram, StmtList.Plain, Stmt.Plain, CondArm.Plain, Expr.Plain, Scatter.Plain, ArgList.Plain, defaultPlain,
    Var.PlainLiteral, Scatter.nargs, Scatter.rests]

theorem mixedProgram_fits : mixedProgram.operandsFit initGstate = true := by decide +kernel

theorem mixedProgram_small : ∀ prog ∈ generateCode mixedProgram 0 [], prog.mainVector.vector.length < 2 ^ 31 := by
  decide +kernel

/-- Its variables have no values at first. -/
def unsetStore : Store Unit := ⟨[.none, .none, .none, .none], ()⟩

theorem unsetStore_sane : unsetStore.Sane fun _ => True where
  env v hv := by
    simp only [unsetStore, List.mem_cons, List.not_mem_nil, or_false, or_self] at hv
    rw [hv]
    rfl
  world := trivial

/-- It returns `{2, 2, E_DIV}`. -/
theorem mixedProgram_returns : ∃ prog, generateCode mixedProgram 0 [] = some prog ∧
    Halts (Config.step emptyHost prog.mainVector prog.literals) (.run (unsetStore.machine 0 [] .none))
      (.left .return (.list [.int 2, .int 2, .err .eDiv]) [.int 2, .int 2, .int 2, .err .eDiv] ()) := by
  obtain ⟨prog, hcode⟩ := generateCode_isSome mixedProgram_valid 0 []
  exact ⟨prog, hcode, (generateCode_halts_iff mixedProgram_valid mixedProgram_plain hcode mixedProgram_fits
    (mixedProgram_small prog hcode) emptyHost_sane unsetStore_sane).mpr ⟨3, _, rfl, rfl⟩⟩

/-! ## Where the interpreter stops -/

section

variable {stmts : StmtList} {version n : Nat} {names : List Str} {prog : Program} {host : Host W} {sane : W → Prop}
  {st : Store W} {temp : Var} {c : Config W} {r : Except Stop Flow × Store W}

theorem Leaves.cases (h : Leaves host r c) :
    (∃ why ∈ [Reason.return, .raise, .uncaught, .abort], ∃ value env w, c = .left why value env w) ∨ c = .trapped := by
  obtain ⟨r, st⟩ := r
  cases r with
  | ok flow =>
      cases flow with
      | normal | «return» v => exact .inl ⟨.return, by decide, _, _, _, h⟩
      | «break» exit | «continue» exit => exact h.elim
  | error why =>
      cases why with
      | trapped => exact .inr h
      | killed => exact .inl ⟨.abort, by decide, _, _, _, h⟩
      | raised exc =>
          obtain rfl : c = _ := h
          split
          · exact .inl ⟨.raise, by decide, _, _, _, rfl⟩
          · exact .inl ⟨.uncaught, by decide, _, _, _, rfl⟩

/-- The interpreter is never stuck, with an opcode that it does not know or a stack that is too short:
    where it stops, it has left the frame for a good reason, or the machine has trapped. -/
theorem generateCode_not_stuck (hvalid : stmts.Valid []) (hplain : stmts.Plain)
    (hcode : generateCode stmts version names = some prog) (hfit : stmts.operandsFit initGstate = true)
    (hsmall : prog.mainVector.vector.length < 2 ^ 31) (hhost : host.Sane sane) (hst : st.Sane sane)
    (hsteps : steps (Config.step host prog.mainVector prog.literals) n (.run (st.machine 0 [] temp)) = some c)
    (hlast : c.step host prog.mainVector prog.literals = none) :
    (∃ why ∈ [Reason.return, .raise, .uncaught, .abort], ∃ value env w, c = .left why value env w) ∨ c = .trapped := by
  obtain ⟨hcells, hliterals, pc, hstands, hdone⟩ := generateCode_stands hvalid hplain hcode hfit
  let S : Setting W := ⟨host, prog.mainVector, prog.literals, sane, hhost, hliterals, hsmall, hcells⟩
  obtain ⟨fuel, r, -, hleaves⟩ := (halts_iff_exec (S := S) hvalid hplain hstands hdone hst).mp ⟨⟨n, hsteps⟩, hlast⟩
  exact hleaves.cases

end

/-- The last state of the program above. -/
theorem mixedProgram_not_stuck : ∃ prog n c, generateCode mixedProgram 0 [] = some prog ∧
    steps (Config.step emptyHost prog.mainVector prog.literals) n (.run (unsetStore.machine 0 [] .none)) = some c ∧
    ((∃ why ∈ [Reason.return, .raise, .uncaught, .abort], ∃ value env w, c = .left why value env w) ∨ c = .trapped) := by
  obtain ⟨prog, hcode⟩ := generateCode_isSome mixedProgram_valid 0 []
  have hsmall := mixedProgram_small prog hcode
  obtain ⟨hcells, hliterals, pc, hstands, hdone⟩ :=
    generateCode_stands mixedProgram_valid mixedProgram_plain hcode mixedProgram_fits
  let S : Setting Unit := ⟨emptyHost, prog.mainVector, prog.literals, _, emptyHost_sane, hliterals, hsmall, hcells⟩
  have hexec : ∃ fuel r, execStmts emptyHost fuel mixedProgram unsetStore = some r ∧ Leaves emptyHost r _ :=
    ⟨3, _, rfl, rfl⟩
  obtain ⟨⟨n, hn⟩, hlast⟩ := (halts_iff_exec (S := S) mixedProgram_valid mixedProgram_plain hstands hdone
    unsetStore_sane).mpr hexec
  exact ⟨prog, n, _, hcode, hn, generateCode_not_stuck mixedProgram_valid mixedProgram_plain hcode mixedProgram_fits
    hsmall emptyHost_sane unsetStore_sane hn hlast⟩

end Waverous
