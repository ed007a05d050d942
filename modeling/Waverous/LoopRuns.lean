import Waverous.FlowRuns

/-! # Loops — `execute.c`

    A round of a loop begins at one place, with the state of the loop on the stack, and each makes a
    step at least; so that what has no end on the tree has none in the machine. -/

namespace Waverous

open Machines

variable {W : Type} {α β : Type}

/-- The innermost loop of a name. -/
theorem leftLoop_cons (exit : Int) (loop : LoopPlace) (loops : List LoopPlace) :
    leftLoop exit (loop :: loops) = if leaves exit loop.id = true then some loop else leftLoop exit loops := by
  unfold leftLoop leaves
  by_cases hexit : exit = -1
  · rw [if_pos hexit, decide_eq_true hexit, Bool.true_or, if_pos rfl]
    rfl
  · rw [if_neg hexit, if_neg hexit, decide_eq_false hexit, Bool.false_or, List.find?_cons]
    by_cases hid : loop.id = exit
    · rw [decide_eq_true hid, decide_eq_true hid.symm, if_pos rfl]
    · rw [decide_eq_false hid, decide_eq_false fun h => hid h.symm, if_neg Bool.false_ne_true]

section

variable {S : Setting W} {n p q pc' : Nat} {loops : List LoopPlace} {loop : LoopPlace} {J rts : List Var} {a : β}
  {again : β → Eval W Flow} {flow : Flow} {st : Store W} {c : Config W}

/-- The body of a loop has ended: there is another round, or the loop is over. -/
theorem carries_flow (hJ : Skipped J) (hexit : loop.exitDepth = rts.length ∧ loop.exit = pc')
    (htop : loop.topDepth = (J ++ rts).length) (hsmall : loop.top < 2 ^ 31 ∧ pc' < 2 ^ 31)
    (hloops : ∀ loop ∈ loops, loop.Fits rts.length)
    (hjump : Stretch.all [opAt S.bc .jump, labelAt S.bc loop.top] p q)
    (hagain : ∀ st' temp, st'.Sane S.sane → S.Carries n (.run (st'.machine loop.top (J ++ rts) temp)) (again a) st' rts
      (EndsAt loops pc' rts))
    (hends : EndsAt (loop :: loops) p (J ++ rts) flow st c) (hst : st.Sane S.sane) :
    S.Carries n c ((afterBody loop.id a flow).next again) st rts (EndsAt loops pc' rts) := by
  cases flow with
  | normal =>
      -- `OP_JUMP` back to the top
      obtain ⟨temp, rfl⟩ := hends
      exact .step (step_jump hjump) (hagain st temp hst)
  | «return» v =>
      have hends' : EndsAt loops p (J ++ rts) (.return v) st c := hends
      obtain ⟨c', hlower, hlead⟩ := hends'.lower (fun h => by cases h) hJ hloops pc'
      exact .before hlead (.pure hst hlower)
  | «break» exit =>
      obtain ⟨loop', hloop, hexits⟩ := hends
      rw [leftLoop_cons] at hloop
      by_cases hleaves : leaves exit loop.id = true
      · -- this loop: its cells are popped
        rw [if_pos hleaves] at hloop
        cases hloop
        obtain ⟨temp, hstep⟩ := hexits.here hJ hexit.1 (hexit.2 ▸ hsmall.2)
        rw [afterBody, if_pos hleaves]
        exact .step hstep (.pure hst ⟨temp, by rw [hexit.2]⟩)
      · -- a loop around this one, whose cells lie below
        rw [if_neg hleaves] at hloop
        have hends' : EndsAt loops p (J ++ rts) (.break exit) st c := ⟨loop', hloop, hexits⟩
        obtain ⟨c', hlower, hlead⟩ := hends'.lower (fun h => by cases h) hJ hloops pc'
        rw [afterBody, if_neg hleaves]
        exact .before hlead (.pure hst hlower)
  | «continue» exit =>
      obtain ⟨loop', hloop, hexits⟩ := hends
      rw [leftLoop_cons] at hloop
      by_cases hleaves : leaves exit loop.id = true
      · rw [if_pos hleaves] at hloop
        cases hloop
        -- the cells of the loop stay for the next round
        obtain ⟨temp, hstep⟩ := Exits.here (J := []) hexits (fun _ _ _ _ _ => rfl) htop hsmall.1
        rw [afterBody, if_pos hleaves]
        exact .step hstep (hagain st temp hst)
      · rw [if_neg hleaves] at hloop
        have hends' : EndsAt loops p (J ++ rts) (.continue exit) st c := ⟨loop', hloop, hexits⟩
        obtain ⟨c', hlower, hlead⟩ := hends'.lower (fun h => by cases h) hJ hloops pc'
        rw [afterBody, if_neg hleaves]
        exact .before hlead (.pure hst hlower)

end

/-! ## Rounds -/

/-- What one round does, all rounds do: each of them makes a step at least, so that there are steps
    enough if they have come to an end for lack of fuel only. -/
theorem carries_rounds {S : Setting W} {fuel top : Nat} {rts : List Var} {round : α → Eval W (Round α)} (ok : α → Prop)
    (cells : α → List Var) {good : Flow → Store W → Config W → Prop}
    (hround : ∀ n a st temp (again : α → Eval W Flow), n ≤ fuel → ok a → st.Sane S.sane →
      (∀ a' st' temp', ok a' → st'.Sane S.sane →
        S.Carries (n - 1) (.run (st'.machine top (cells a' ++ rts) temp')) (again a') st' rts good) →
      S.Carries n (.run (st.machine top (cells a ++ rts) temp)) (round a >>= Round.next again) st rts good)
    (k : Nat) : ∀ n a st temp, n ≤ k → k ≤ fuel → ok a → st.Sane S.sane →
      S.Carries n (.run (st.machine top (cells a ++ rts) temp)) (runRounds round k a) st rts good := by
  -- on the fuel that is left, which is never less than the steps that are asked for
  induction k with
  | zero =>
      intro n a st temp hn _ _ _
      obtain rfl := Nat.le_zero.mp hn
      exact Runs.zero _
  | succ k ih =>
      intro n a st temp hn hk ha hst
      rw [runRounds]
      exact hround n a st temp _ (by omega) ha hst fun a' st' temp' ha' hst' =>
        ih (n - 1) a' st' temp' (by omega) (by omega) ha' hst'

/-! ## `for` -/

section

variable {S : Setting W} {fuel id top n p1 p2 p3 p4 pc pc' : Nat} {loops : List LoopPlace} {rts : List Var} {v w : Var}
  {code : Stretch} {body : Eval W Flow} {st : Store W} {temp : Var}

theorem forward_jumpTo {bc : Bytecodes} {target : Nat} : (Stretch.all [opAt bc .jump, labelAt bc target]).Forward :=
  forward_byte.cons (forward_operand.cons .nil)

/-- The opcode of a loop is in the vector, as all behind it is. -/
theorem top_lt {op : Opcode} {p5 p6 : Nat} (hop : opAt S.bc op top p3) (hvar : varRefAt S.bc id p3 p4)
    (hlab : labelAt S.bc pc' p4 p5) (hforward : code.Forward) (hcode : code p5 p6)
    (hjump : Stretch.all [opAt S.bc .jump, labelAt S.bc top] p6 pc') (hlt : pc' < S.bc.vector.length) :
    top < S.bc.vector.length := by
  have := forward_byte _ _ hop
  have := forward_operand _ _ hvar
  have := forward_operand _ _ hlab
  have := hforward _ _ hcode
  have := forward_jumpTo _ _ hjump
  omega

/-- An error of a loop: it is raised, or the loop is skipped. -/
theorem carries_failFlow {J : List Var} (hJ : Unmarked J) (hst : st.Sane S.sane) {e : Error} {c : Config W} {p : Nat}
    (hstep : S.step c = some ((st.machine p (J ++ rts) temp).next S.host
      (if S.host.debug then .raise e ⟨pc, J ++ rts, st.env⟩ else .opcode ⟨pc', rts, st.env⟩)))
    {again : α → Eval W Flow} :
    S.Carries n c (do let r ← (do let flow ← failFlow S.host e; pure (.done flow)); Round.next again r) st rts
      (EndsAt loops pc' rts) := by
  unfold failFlow
  cases hdebug : S.host.debug with
  | true =>
      rw [hdebug, if_pos rfl] at hstep
      rw [if_pos rfl]
      have hraised : S.Carries n c (raise S.host (.ofError e) : Eval W Flow) st (J ++ rts) fun _ _ _ => False :=
        .step hstep (carries_raise S.hostSane hst (ofError_ordinary e))
      have hflow : S.Carries n c (do let flow ← raise S.host (.ofError e); pure (Round.done flow) : Eval W (Round α)) st rts
          fun _ _ _ => False := .bind hraised hJ fun _ _ _ _ h => h.elim
      exact .seq hflow fun _ _ _ _ h => h.elim
  | false =>
      rw [hdebug, if_neg Bool.false_ne_true] at hstep
      rw [if_neg Bool.false_ne_true]
      exact .step hstep (.pure (a := Flow.normal) hst ⟨temp, rfl⟩)

/-- A round in which the body is run: the opcode has given the variable its value, and what is left of
    the loop is on the stack. -/
theorem carries_body {J : List Var} {a : α} {again : α → Eval W Flow} {c : Config W} (hv : v.ordinary = true)
    (hstep : S.step c = some (.run ((st.assign id v).machine p3 (J ++ rts) temp))) (hJ : Unmarked J)
    (hlen : J.length = 2) (hcode : code p3 p4) (hjump : Stretch.all [opAt S.bc .jump, labelAt S.bc top] p4 pc')
    (hlt : pc' < S.bc.vector.length) (htop : top < S.bc.vector.length) (hloops : ∀ loop ∈ loops, loop.Fits rts.length)
    (hbody : S.Ends fuel code (⟨id, top, rts.length + 2, pc', rts.length⟩ :: loops) p4 (J ++ rts) body)
    (hn : n ≤ fuel) (hst : st.Sane S.sane)
    (hagain : ∀ st' temp', st'.Sane S.sane → S.Carries (n - 1) (.run (st'.machine top (J ++ rts) temp')) (again a) st' rts
      (EndsAt loops pc' rts)) :
    S.Carries n c ((do setVar id v; let flow ← body; pure (afterBody id a flow)) >>= Round.next again) st rts
      (EndsAt loops pc' rts) := by
  have hlast : p4 < S.bc.vector.length := by
    have := forward_jumpTo _ _ hjump
    omega
  have hrun := hbody (n - 1) p3 _ temp (by omega) hcode hlast (hst.assign hv id)
  simp only [bind_assoc, pure_bind]
  refine .tick hstep (.assign (.bind hrun hJ ?_))
  intro flow st' c' hst' hends
  have hdepth : (rts.length : Int) + 2 = (J ++ rts).length := by
    rw [List.length_append, hlen]
    omega
  exact carries_flow hJ.skipped ⟨rfl, rfl⟩ hdepth ⟨htop.trans S.small, hlt.trans S.small⟩ hloops hjump
    (fun st2 temp2 hst2 => hagain st2 temp2 hst2) hends hst'

/-! ### Over a list -/

theorem step_forList {count : Int32} (hop : opAt S.bc .forList top p1) (hvar : varRefAt S.bc id p1 p2)
    (hlab : labelAt S.bc pc' p2 p3) : S.step (.run (st.machine top (.int count :: v :: rts) temp)) =
      (forList S.host.debug id pc' ⟨p3, .int count :: v :: rts, st.env⟩).map
        ((st.machine p3 (.int count :: v :: rts) temp).next S.host) := by
  rw [Setting.step, step_op hop]
  show (opForList S.host.debug S.bc ⟨p1, .int count :: v :: rts, st.env⟩).map _ = _
  rw [opForList, readOperand_at hvar]
  show ((readOperand S.bc S.bc.numbytesLabel ⟨p2, .int count :: v :: rts, st.env⟩).bind _ : Option Next).map _ = _
  rw [readOperand_at hlab]
  rfl

/-- What is no list has no rounds. -/
theorem forList_noList {debug : Bool} {count : Int32} {env : List Var} (hv : ∀ l, v ≠ .list l) :
    forList debug id pc' ⟨pc, .int count :: v :: rts, env⟩ =
      some (if debug then .raise .eType ⟨pc, .int count :: v :: rts, env⟩ else .opcode ⟨pc', rts, env⟩) := by
  cases v with
  | list l => exact absurd rfl (hv l)
  | _ => rfl

theorem listRound_noList {host : Host W} {count : Int32} (hv : ∀ l, v ≠ .list l) :
    listRound host id v body count = (do let flow ← failFlow host .eType; pure (.done flow)) := by
  cases v with
  | list l => exact absurd rfl (hv l)
  | _ => rfl

/-- The round of an element. -/
theorem carries_listRound (hv : v.ordinary = true) (hop : opAt S.bc .forList top p1) (hvar : varRefAt S.bc id p1 p2)
    (hlab : labelAt S.bc pc' p2 p3) (hcode : code p3 p4)
    (hjump : Stretch.all [opAt S.bc .jump, labelAt S.bc top] p4 pc') (hlt : pc' < S.bc.vector.length)
    (htop : top < S.bc.vector.length) (hloops : ∀ loop ∈ loops, loop.Fits rts.length)
    (hbody : ∀ count : Int32, S.Ends fuel code (⟨id, top, rts.length + 2, pc', rts.length⟩ :: loops) p4
      (.int count :: v :: rts) body) {count : Int32} {again : Int32 → Eval W Flow} (hn : n ≤ fuel) (hst : st.Sane S.sane)
    (hagain : ∀ count st' temp', st'.Sane S.sane → S.Carries (n - 1)
      (.run (st'.machine top ([.int count, v] ++ rts) temp')) (again count) st' rts (EndsAt loops pc' rts)) :
    S.Carries n (.run (st.machine top ([.int count, v] ++ rts) temp)) (listRound S.host id v body count >>= Round.next again)
      st rts (EndsAt loops pc' rts) := by
  have hstep : S.step (.run (st.machine top (.int count :: v :: rts) temp)) = _ := step_forList hop hvar hlab
  have hJ : ∀ count, Unmarked [Var.int count, v] := fun _ => (Ordinary.cons rfl (.cons hv .nil)).unmarked
  by_cases hno : ∀ l, v ≠ .list l
  · rw [forList_noList hno] at hstep
    rw [listRound_noList hno]
    exact carries_failFlow (hJ count) hst hstep
  · obtain ⟨l, rfl⟩ : ∃ l, v = .list l := by
      by_contra h
      exact hno fun l hl => h ⟨l, hl⟩
    by_cases hover : count.toInt > l.length
    · simp only [forList, if_pos hover] at hstep
      rw [listRound, if_pos hover]
      exact .step hstep (.pure (a := Flow.normal) hst ⟨temp, rfl⟩)
    simp only [forList, if_neg hover] at hstep
    rw [listRound, if_neg hover]
    -- at a count before the first place both trap
    by_cases hpos : 0 < count.toInt
    · simp only [if_pos hpos] at hstep
      rw [if_pos hpos]
      cases hget : l[count.toInt.toNat - 1]? with
      | none =>
          simp only [hget] at hstep
          exact .step hstep (.some ⟨hst, rfl⟩ (.refl _))
      | some w =>
          simp only [hget] at hstep
          have hround : S.step (.run (st.machine top (.int count :: .list l :: rts) temp)) =
              some (.run ((st.assign id w).machine p3 ([.int (count + 1), .list l] ++ rts) temp)) := hstep
          exact carries_body ((ordinary_list.mp hv).getElem? hget) hround (hJ _) rfl hcode hjump hlt htop hloops
            (hbody (count + 1)) hn hst fun st' temp' hst' => hagain (count + 1) st' temp' hst'
    · simp only [if_neg hpos] at hstep
      rw [if_neg hpos]
      exact .step hstep (.some ⟨hst, rfl⟩ (.refl _))

/-! ### Over a range -/

theorem step_forRange (hop : opAt S.bc .forRange top p1) (hvar : varRefAt S.bc id p1 p2) (hlab : labelAt S.bc pc' p2 p3) :
    S.step (.run (st.machine top (w :: v :: rts) temp)) =
      (forRange S.host.debug id pc' ⟨p3, w :: v :: rts, st.env⟩).map ((st.machine p3 (w :: v :: rts) temp).next S.host) := by
  rw [Setting.step, step_op hop]
  show (opForRange S.host.debug S.bc ⟨p1, w :: v :: rts, st.env⟩).map _ = _
  rw [opForRange, readOperand_at hvar]
  show ((readOperand S.bc S.bc.numbytesLabel ⟨p2, w :: v :: rts, st.env⟩).bind _ : Option Next).map _ = _
  rw [readOperand_at hlab]
  rfl

theorem rangeNext_ordinary {next : Var} {done : Bool} (h : rangeNext v w = some (done, next)) : next.ordinary = true := by
  unfold rangeNext at h
  split at h
  · cases h
    rfl
  · cases h
    rfl
  · cases h

/-- The round of a number or object. -/
theorem carries_rangeRound (hw : w.ordinary = true) (hop : opAt S.bc .forRange top p1) (hvar : varRefAt S.bc id p1 p2)
    (hlab : labelAt S.bc pc' p2 p3) (hcode : code p3 p4)
    (hjump : Stretch.all [opAt S.bc .jump, labelAt S.bc top] p4 pc') (hlt : pc' < S.bc.vector.length)
    (htop : top < S.bc.vector.length) (hloops : ∀ loop ∈ loops, loop.Fits rts.length)
    (hbody : ∀ next, S.Ends fuel code (⟨id, top, rts.length + 2, pc', rts.length⟩ :: loops) p4 (w :: next :: rts) body)
    {again : Var → Eval W Flow} (hn : n ≤ fuel) (hv : v.ordinary = true) (hst : st.Sane S.sane)
    (hagain : ∀ next st' temp', next.ordinary = true → st'.Sane S.sane → S.Carries (n - 1)
      (.run (st'.machine top ([w, next] ++ rts) temp')) (again next) st' rts (EndsAt loops pc' rts)) :
    S.Carries n (.run (st.machine top ([w, v] ++ rts) temp)) (rangeRound S.host id w body v >>= Round.next again) st rts
      (EndsAt loops pc' rts) := by
  have hstep : S.step (.run (st.machine top (w :: v :: rts) temp)) = _ := step_forRange hop hvar hlab
  have hJ : ∀ {next : Var}, next.ordinary = true → Unmarked [w, next] := fun h =>
    (Ordinary.cons hw (.cons h .nil)).unmarked
  rw [rangeRound]
  rw [forRange] at hstep
  dsimp only at hstep
  cases hnext : rangeNext v w with
  | none =>
      rw [hnext] at hstep
      exact carries_failFlow (hJ hv) hst hstep
  | some r =>
      obtain ⟨done, next⟩ := r
      have hordinary := rangeNext_ordinary hnext
      rw [hnext] at hstep
      cases done with
      | true => exact .step hstep (.pure (a := Flow.normal) hst ⟨temp, rfl⟩)
      | false =>
          have hround : S.step (.run (st.machine top (w :: v :: rts) temp)) =
              some (.run ((st.assign id v).machine p3 ([w, next] ++ rts) temp)) := hstep
          exact carries_body hv hround (hJ hordinary) rfl hcode hjump hlt htop hloops (hbody next) hn hst
            fun st' temp' hst' => hagain next st' temp' hordinary hst'

end

/-! ## `while` -/

section

variable {S : Setting W} {fuel top n p1 p2 p3 pc pc' : Nat} {id : Int} {loops : List LoopPlace} {rts : List Var} {v : Var}
  {code cond : Stretch} {test : Eval W Var} {body : Eval W Flow} {st : Store W} {temp : Var}

/-- The value of the condition is kept under the name of the loop. -/
def Store.named (st : Store W) (id : Int) (v : Var) : Store W := if id = -1 then st else st.assign id.toNat v

theorem Store.Sane.named {sane : W → Prop} (hst : st.Sane sane) (hv : v.ordinary = true) (id : Int) :
    (st.named id v).Sane sane := by
  unfold Store.named
  split
  · exact hst
  · exact hst.assign hv _

/-- `OP_WHILE` and `EOP_WHILE_ID`. -/
theorem step_while (h : Stretch.all [whileCode S.bc id, labelAt S.bc pc'] pc p3) :
    S.step (.run (st.machine pc (v :: rts) temp)) =
      some (.run ((st.named id v).machine (if isTrue v then p3 else pc') rts temp)) := by
  unfold whileCode at h
  unfold Store.named
  split at h
  · next hid =>
      rw [if_pos hid]
      exact step_test (.inr (.inr (.inl rfl))) h
  · next hid =>
      rw [if_neg hid]
      obtain ⟨p1, ⟨p0, hop, _, hvar, rfl⟩, _, hlab, rfl⟩ := h
      rw [Setting.step, step_extended hop]
      show (eopWhileId S.bc ⟨p0, v :: rts, st.env⟩).map _ = _
      rw [eopWhileId, readOperand_at hvar]
      show (doTestOp S.bc ⟨p1, v :: rts, st.env.set id.toNat v⟩).map _ = _
      rw [doTestOp]
      show ((readOperand S.bc S.bc.numbytesLabel ⟨p1, rts, st.env.set id.toNat v⟩).bind _ : Option Next).map _ = _
      rw [readOperand_at hlab]
      show some (Machine.next S.host _ (.opcode (if isTrue v then _ else _))) = _
      split <;> rfl

theorem whileRound_eq : whileRound id test body () = test >>= fun v =>
    (if id = -1 then pure () else setVar id.toNat v) >>= fun _ =>
      if isTrue v then body >>= fun flow => pure (afterBody id () flow) else pure (.done .normal) := by
  unfold whileRound
  congr 1
  funext v
  dsimp only
  split <;> rfl

theorem carries_named {m : Eval W α} {good : α → Store W → Config W → Prop} {c : Config W}
    (h : S.Carries n c m (st.named id v) rts good) :
    S.Carries n c ((if id = -1 then pure () else setVar id.toNat v) >>= fun _ => m) st rts good := by
  unfold Store.named at h
  split at h
  · next hid => rwa [if_pos hid, pure_bind]
  · next hid =>
      rw [if_neg hid]
      exact .assign h

/-- A round, from the condition on. -/
theorem carries_whileRound (htest : S.Gives cond p1 rts test) (hcond : cond top p1)
    (hwhile : Stretch.all [whileCode S.bc id, labelAt S.bc pc'] p1 p2) (hcode : code p2 p3)
    (hjump : Stretch.all [opAt S.bc .jump, labelAt S.bc top] p3 pc') (hlt : pc' < S.bc.vector.length)
    (hp1 : p1 < S.bc.vector.length) (htop : top < S.bc.vector.length) (hloops : ∀ loop ∈ loops, loop.Fits rts.length)
    (hbody : S.Ends fuel code (⟨id, top, rts.length, pc', rts.length⟩ :: loops) p3 rts body)
    {again : Unit → Eval W Flow} (hn : n ≤ fuel) (hst : st.Sane S.sane)
    (hagain : ∀ st' temp', st'.Sane S.sane → S.Carries (n - 1) (.run (st'.machine top ([] ++ rts) temp')) (again ()) st' rts
      (EndsAt loops pc' rts)) :
    S.Carries n (.run (st.machine top ([] ++ rts) temp)) (whileRound id test body () >>= Round.next again) st rts
      (EndsAt loops pc' rts) := by
  have hlast : p3 < S.bc.vector.length := by
    have := forward_jumpTo _ _ hjump
    omega
  rw [whileRound_eq, bind_assoc]
  refine .seq (htest n top st temp hcond hp1 hst) ?_
  rintro v st' _ hst' ⟨hv, temp', rfl⟩
  rw [bind_assoc]
  -- the value is kept under the name of the loop whether it is true or not
  refine .tick (step_while hwhile) (carries_named ?_)
  have hst2 := hst'.named hv id
  by_cases htrue : isTrue v = true
  · rw [if_pos htrue, if_pos htrue]
    have hrun := hbody (n - 1) p2 _ temp' (by omega) hcode hlast hst2
    simp only [bind_assoc, pure_bind]
    refine .seq hrun ?_
    intro flow st3 c hst3 hends
    exact carries_flow (J := []) (fun _ _ _ _ _ => rfl) ⟨rfl, rfl⟩ rfl ⟨htop.trans S.small, hlt.trans S.small⟩ hloops
      hjump (fun st4 temp4 hst4 => hagain st4 temp4 hst4) hends hst3
  · rw [if_neg htrue, if_neg htrue]
    exact .pure (a := Flow.normal) hst2 ⟨temp', rfl⟩

end

/-! ## Statements -/

section

variable {S : Setting W} {fuel pc' : Nat} {loops : List LoopPlace} {rts : List Var} {e e1 e2 : Expr} {stmts : StmtList}

theorem ends_list {id : Nat} (he : ∀ p, S.Gives (e.stands S.bc S.lits (-1) rts.length) p rts (evalExpr S.host e none))
    (hloops : ∀ loop ∈ loops, loop.Fits rts.length) (hplain : stmts.Plain)
    (hbody : ∀ v count top p, top < S.bc.vector.length → pc' < S.bc.vector.length →
      S.Ends fuel (stmts.stands S.bc S.lits (⟨id, top, rts.length + 2, pc', rts.length⟩ :: loops) (rts.length + 2))
        (⟨id, top, rts.length + 2, pc', rts.length⟩ :: loops) p (.int count :: v :: rts) (execStmts S.host fuel stmts)) :
    S.Ends fuel ((Stmt.list id e stmts).stands S.bc S.lits loops rts.length) loops pc' rts
      (execStmt S.host fuel (.list id e stmts)) := by
  rintro n pc st temp hn ⟨top, p1, hstands, p2, hnum, q, ⟨rfl, rfl⟩, p3, hop, p4, hvar, p5, hlab, p6, hcode, hjump⟩ hlt hst
  have htop : q < S.bc.vector.length := top_lt hop hvar hlab (stmts.forward hplain _ _) hcode hjump hlt
  have hp1 := Nat.lt_of_le_of_lt (forward_byte _ _ hnum) htop
  rw [execStmt]
  refine .seq (he p1 n pc st temp hstands hp1 hst) ?_
  rintro v st' _ hst' ⟨hv, temp', rfl⟩
  -- the count is 1 before the first round
  have hone : numberAt S.bc (1 : Int32).toInt p1 q := hnum
  refine carries_number 1 rfl hone ?_
  refine carries_rounds (fun _ => True) (fun count => [.int count, v]) ?_ fuel n 1 st' temp' hn
    (Nat.le_refl fuel) trivial hst'
  intro n count st2 temp2 again hn _ hst2 hagain
  exact carries_listRound hv hop hvar hlab hcode hjump hlt htop hloops (fun count => hbody v count _ p6 htop hlt) hn hst2
    fun count st3 temp3 hst3 => hagain count st3 temp3 trivial hst3

theorem ends_range {id : Nat} (he1 : ∀ p, S.Gives (e1.stands S.bc S.lits (-1) rts.length) p rts (evalExpr S.host e1 none))
    (he2 : ∀ v p, S.Gives (e2.stands S.bc S.lits (-1) (rts.length + 1)) p (v :: rts) (evalExpr S.host e2 none))
    (hloops : ∀ loop ∈ loops, loop.Fits rts.length) (hplain : stmts.Plain)
    (hbody : ∀ v w top p, top < S.bc.vector.length → pc' < S.bc.vector.length →
      S.Ends fuel (stmts.stands S.bc S.lits (⟨id, top, rts.length + 2, pc', rts.length⟩ :: loops) (rts.length + 2))
        (⟨id, top, rts.length + 2, pc', rts.length⟩ :: loops) p (w :: v :: rts) (execStmts S.host fuel stmts)) :
    S.Ends fuel ((Stmt.range id e1 e2 stmts).stands S.bc S.lits loops rts.length) loops pc' rts
      (execStmt S.host fuel (.range id e1 e2 stmts)) := by
  rintro n pc st temp hn ⟨top, p1, hstands1, p2, hstands2, q, ⟨rfl, rfl⟩, p3, hop, p4, hvar, p5, hlab, p6, hcode, hjump⟩
    hlt hst
  have htop : q < S.bc.vector.length := top_lt hop hvar hlab (stmts.forward hplain _ _) hcode hjump hlt
  have hp1 := Nat.lt_of_le_of_lt (e2.forward _ _ _ _ hstands2) htop
  rw [execStmt]
  refine .seq (he1 p1 n pc st temp hstands1 hp1 hst) ?_
  rintro v st' _ hst' ⟨hv, temp', rfl⟩
  refine .bind (J := [v]) (he2 v _ n p1 st' temp' hstands2 htop hst') (Ordinary.cons hv .nil).unmarked ?_
  rintro w st2 _ hst2 ⟨hw, temp2, rfl⟩
  refine carries_rounds (fun v => v.ordinary = true) (fun v => [w, v]) ?_ fuel n v st2 temp2 hn
    (Nat.le_refl fuel) hv hst2
  intro n v st3 temp3 again hn hv hst3 hagain
  exact carries_rangeRound hw hop hvar hlab hcode hjump hlt htop hloops (fun next => hbody next w _ p6 htop hlt) hn hv hst3
    fun next st4 temp4 hnext hst4 => hagain next st4 temp4 hnext hst4

theorem ends_while {id : Int} (he : ∀ p, S.Gives (e.stands S.bc S.lits (-1) rts.length) p rts (evalExpr S.host e none))
    (hloops : ∀ loop ∈ loops, loop.Fits rts.length) (hplain : stmts.Plain)
    (hbody : ∀ top p, top < S.bc.vector.length → pc' < S.bc.vector.length →
      S.Ends fuel (stmts.stands S.bc S.lits (⟨id, top, rts.length, pc', rts.length⟩ :: loops) rts.length)
        (⟨id, top, rts.length, pc', rts.length⟩ :: loops) p rts (execStmts S.host fuel stmts)) :
    S.Ends fuel ((Stmt.while id e stmts).stands S.bc S.lits loops rts.length) loops pc' rts
      (execStmt S.host fuel (.while id e stmts)) := by
  rintro n pc st temp hn ⟨top, _, ⟨rfl, rfl⟩, p1, hstands, p2, hwhile, p3, hlab, p4, hcode, hjump⟩ hlt hst
  have hp1 : p1 < S.bc.vector.length := by
    have := forward_while _ _ hwhile
    have := forward_operand _ _ hlab
    have := stmts.forward hplain _ _ _ _ hcode
    have := forward_jumpTo _ _ hjump
    omega
  have htop := Nat.lt_of_le_of_lt (e.forward _ _ _ _ hstands) hp1
  rw [execStmt]
  refine carries_rounds (fun _ => True) (fun _ => []) ?_ fuel n () st temp hn (Nat.le_refl fuel) trivial hst
  intro n _ st2 temp2 again hn _ hst2 hagain
  exact carries_whileRound (he p1) hstands ⟨p2, hwhile, p3, hlab, rfl⟩ hcode hjump hlt hp1 htop hloops
    (hbody _ p4 htop hlt) hn hst2 fun st3 temp3 hst3 => hagain () st3 temp3 trivial hst3

end

end Waverous
