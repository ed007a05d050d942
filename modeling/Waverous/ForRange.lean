import Waverous.CodeParts
import Waverous.Run

/-! # `for` over a range — `code_gen.c`, `execute.c`

    The code of the statement, wherever it stands in a vector, and what the interpreter does
    with it.  The body is anything that comes to its end with the stack as it was. -/

namespace Waverous

open Links

variable {s s' s1 s2 s3 s4 fin : GenState} {bc : Bytecodes} {R : Nat → Prop} {out : List Nat}

/-! ## Chains around a statement -/

theorem Ended.same (h : Ended R s) (hg : Grown s s') (hloops : s'.loops = s.loops) : Ended R s' :=
  fun loop hloop b hb => (h loop (hloops ▸ hloop) b hb).extends hg.next

/-- Fixups that are not there yet are in no chain. -/
theorem Ended.widen {R' : Nat → Prop} (h : Ended R' s)
    (hR : ∀ r, R r → R' r ∨ s.fixups.length ≤ r) : Ended R s := by
  intro loop hloop b hb
  refine (h loop hloop b hb).widen fun r hr => ?_
  rcases hR r hr with h | h
  · exact .inl h
  · refine .inr ?_
    rw [nextLabel, List.getElem?_eq_none h]
    rfl

theorem Grown.place_le (h : Grown s s') : s.place bc fin ≤ s'.place bc fin :=
  place_mono bc fin.fixups h.bytes.length_le

/-! ## The code of a loop -/

/-- When a loop is left, the loops around it are as they were. -/
theorem Safe.leave {new loop : Loop} {rest : List Loop}
    (h : Safe R { s with loops := new :: s.loops } s') (hloops : s'.loops = loop :: rest) :
    Safe R s { s' with loops := rest } := by
  refine ⟨h.stays, ?_, fun i loop' hi => ?_⟩
  · have hcount := h.count
    rw [hloops] at hcount
    exact Nat.succ.inj hcount
  · obtain ⟨loop'', hi'', hkept⟩ := h.loops (i + 1) loop' hi
    rw [hloops] at hi''
    exact ⟨loop'', hi'', hkept⟩

/-- What the end of a loop finds: the label of its start is in the chain that is to be defined. -/
theorem loop_left {id topStack bottomStack : Int} {top : Fixup} {l : Nat} {b : Option Nat}
    {body : Gen Unit} {u : Unit} (hR : ∀ r, R r → r < s.fixups.length) (hend : Ended R s)
    (ht : s.Tidy) (htop : top.kind = .label) (hlabel : addLabel s = some (l, s1))
    (hdoes : Does [] body noLabels)
    (hbody : body { s1 with loops := ⟨id, top, topStack, some l, bottomStack⟩ :: s1.loops } = some (u, s2))
    (hexit : exitLoop s2 = some (b, s3)) :
    Safe (fun r => R r ∨ r = l) s1 s3 ∧ Ended (fun r => R r ∨ r = l) s3 ∧ Grown s1 s3 ∧ s3.Tidy ∧
      ∃ n, b = some n ∧ Links.On (nextLabel s3.fixups) l n ∧ Links.Off (nextLabel s3.fixups) R n := by
  obtain ⟨hdone, rfl, hloops, f, hkind, hnext, hfixups⟩ := addLinkedLabel_spec hlabel ht (H := [])
  have hlen : s1.fixups.length = s.fixups.length + 1 := by
    rw [hfixups, List.length_append, List.length_singleton]
  have hend1 : Ended (fun r => R r ∨ r = s.fixups.length) s1 :=
    (hend.widen fun r hr => hr.imp_right fun h => Nat.le_of_eq h.symm).same hdone.grown hloops
  have hget : nextLabel s1.fixups s.fixups.length = some none := by
    rw [nextLabel_some]
    exact ⟨{ f with pc := s.bytes.length }, by rw [hfixups, List.getElem?_concat_length], hkind, hnext⟩
  have hbodyDone := hdoes _ _ _ hbody (hdone.tidy.enter ⟨id, top, topStack, _, bottomStack⟩ htop)
  obtain ⟨hsafe, -⟩ := hbodyDone.safe R (fun r hr => by
    have := hR r hr
    show r < s1.fixups.length
    omega) (by simp)
  obtain ⟨hsafe', -⟩ := hbodyDone.safe (fun r => R r ∨ r = s.fixups.length) (fun r hr => by
    show r < s1.fixups.length
    rcases hr with hr | rfl
    · have := hR r hr
      omega
    · omega) (by simp)
  obtain ⟨loop, hloop, hoff, -⟩ := hsafe.loops 0 _ rfl
  obtain ⟨loop', hloop', -, hon⟩ := hsafe'.loops 0 _ rfl
  rw [hloop] at hloop'
  cases hloop'
  have hnewOff : Loop.Off R s1.fixups ⟨id, top, topStack, some s.fixups.length, bottomStack⟩ := by
    rintro _ ⟨⟩
    exact .last hget fun hr => Nat.lt_irrefl _ (hR _ hr)
  have hnewOn : Loop.On s.fixups.length s1.fixups
      ⟨id, top, topStack, some s.fixups.length, bottomStack⟩ :=
    ⟨_, rfl, .here (by rw [hget]; rfl)⟩
  rw [exitLoop] at hexit
  split at hexit
  next loop' rest hloops2 =>
    rw [hloops2] at hloop
    cases hloop
    cases hexit
    have hleave := hsafe'.leave hloops2
    obtain ⟨n, hn, hon⟩ := hon _ (.inr rfl) hnewOn
    refine ⟨hleave, hleave.ended hend1, ⟨hbodyDone.grown.bytes, hbodyDone.grown.fixups,
      hbodyDone.grown.later⟩, ?_, n, hn, hon, hoff hnewOff n hn⟩
    exact ⟨hbodyDone.tidy.sorted, hbodyDone.tidy.placed, hbodyDone.tidy.counted,
      hbodyDone.tidy.stackCount, fun loop hmem =>
        hbodyDone.tidy.tops loop (hloops2 ▸ List.mem_cons_of_mem _ hmem)⟩
  next => cases hexit

/-- The fixups at the end of a loop: its label is defined there, and the jump back is as it was. -/
structure LoopDefined (R : Nat → Prop) (s s5 s6 : GenState) (l n : Nat) : Prop where
  stays : ∀ r, R r → s6.fixups[r]? = s.fixups[r]?
  label : ∃ f : Fixup, f.kind = .label ∧ s6.fixups[l]? = some (s5.here f)
  back : s6.fixups[n]? = s5.fixups[n]?
  ended : Ended (fun r => (R r ∨ r = l) ∨ r = n) s6
  tidy : s5.Tidy

theorem loop_defined {s5 s6 : GenState} {id topStack bottomStack : Int} {top : Fixup} {l n : Nat}
    {b : Option Nat} {body : Gen Unit} {u : Unit} (hR : ∀ r, R r → r < s.fixups.length)
    (hend : Ended R s) (ht : s.Tidy) (htop : top.kind = .label) (hlabel : addLabel s = some (l, s1))
    (hdoes : Does [] body noLabels)
    (hbody : body { s1 with loops := ⟨id, top, topStack, some l, bottomStack⟩ :: s1.loops } = some (u, s2))
    (hexit : exitLoop s2 = some (b, s3)) (hjump : emitOp .jump s3 = some (u, s4))
    (hback : addKnownLabel top s4 = some (n, s5)) (hdefine : defineLabel b s5 = some (u, s6)) :
    LoopDefined R s s5 s6 l n := by
  obtain ⟨hsafe, hend3, hg3, ht3, m, rfl, hon, hoff⟩ :=
    loop_left hR hend ht htop hlabel hdoes hbody hexit
  obtain ⟨hdone1, rfl, -, f, -, -, hfixups⟩ := addLinkedLabel_spec hlabel ht (H := [])
  have hjumped := does_emitOp (H := []) _ _ _ _ hjump ht3
  have hbacked := does_addKnownLabel (H := []) htop _ _ _ hback hjumped.tidy
  have hshape : n = s4.fixups.length ∧ s5.fixups.length = s4.fixups.length + 1 ∧
      s5.loops = s3.loops ∧ s4.fixups = s3.fixups := by
    cases hback
    cases hjump
    exact ⟨rfl, List.length_append, rfl, rfl⟩
  obtain ⟨rfl, hlen5, hloops5, hfix4⟩ := hshape
  have hg5 : Grown s3 s5 := hjumped.grown.trans hbacked.grown
  have hend5 : Ended (fun r => (R r ∨ r = s.fixups.length) ∨ r = s4.fixups.length) s5 :=
    (hend3.widen fun r hr => hr.imp_right fun h => by rw [h, hfix4]).same hg5 hloops5
  have hlt : s.fixups.length < s4.fixups.length := by
    have := hg3.length
    rw [hfixups, List.length_append, List.length_singleton] at this
    rw [hfix4]
    omega
  cases hdefine
  have hmap : (defineChain s5 s5.fixups.length (some m) s5.fixups).map Fixup.shape =
      s5.fixups.map Fixup.shape := map_shape_defineChain s5
  have hoff5 : ∀ b, some m = some b →
      Links.Off (nextLabel s5.fixups) (fun r => R r ∨ r = s4.fixups.length) b := by
    rintro _ ⟨⟩
    refine (hoff.widen fun r hr => hr.imp_right ?_).extends hg5.next
    rintro rfl
    rw [nextLabel, hfix4, List.getElem?_eq_none (Nat.le_refl _)]
    rfl
  have hstays : ∀ r, R r ∨ r = s.fixups.length → s5.fixups[r]? = s1.fixups[r]? := by
    intro r hr
    have hr4 : r < s4.fixups.length := by
      rcases hr with hr | rfl
      · exact Nat.lt_trans (hR r hr) hlt
      · exact hlt
    obtain ⟨hbackSafe, -⟩ := hbacked.safe (fun j => j = r) (fun j hj => hj ▸ hr4) (by simp)
    rw [hbackSafe.stays r rfl, hfix4, hsafe.stays r hr]
  constructor
  · intro r hr
    show (defineChain s5 s5.fixups.length (some m) s5.fixups)[r]? = _
    rw [getElem?_defineChain_off s5 hoff5 (.inl hr), hstays r (.inl hr), hfixups,
      List.getElem?_append_left (hR r hr)]
  · obtain ⟨-, f', hkind, -, hfix'⟩ := addLinkedLabel_run hlabel
    refine ⟨{ f' with pc := s.bytes.length }, hkind, ?_⟩
    have hget := hstays s.fixups.length (.inr rfl)
    rw [hfix', List.getElem?_concat_length] at hget
    exact getElem?_defineChain_on s5 (hon.extends hg5.next) (by
      obtain ⟨x, hx⟩ := Option.isSome_iff_exists.mp hon.isSome
      obtain ⟨f'', hf'', -⟩ := nextLabel_some.mp hx
      have hlt3 := (List.getElem?_eq_some_iff.mp hf'').1
      rw [← hfix4] at hlt3
      omega) hget
  · exact getElem?_defineChain_off s5 hoff5 (.inr rfl)
  · intro loop hloop c hc
    show Links.Off (nextLabel (defineChain s5 s5.fixups.length (some m) s5.fixups)) _ c
    rw [nextLabel_congr hmap]
    exact hend5 loop hloop c hc
  · exact hbacked.tidy

/-! ## The code of the statement -/

/-- Where `OP_FOR_RANGE`, the body, `OP_JUMP` and what follows the statement stand. -/
structure RangePlaces where
  top : Nat
  start : Nat
  stop : Nat
  exit : Nat

/-- The code at these places. -/
structure RangeCode (bc : Bytecodes) (id : Nat) (l : RangePlaces) : Prop where
  op : bc.vector[l.top]? = some Opcode.forRange.byte
  var : readBytes bc.vector (l.top + 1) bc.numbytesVarName = some id
  label : readBytes bc.vector (l.top + 1 + bc.numbytesVarName) bc.numbytesLabel = some l.exit
  start : l.start = l.top + 1 + bc.numbytesVarName + bc.numbytesLabel
  order : l.start ≤ l.stop
  jump : bc.vector[l.stop]? = some Opcode.jump.byte
  back : readBytes bc.vector (l.stop + 1) bc.numbytesLabel = some l.top
  exit : l.exit = l.stop + 1 + bc.numbytesLabel

/-- The bounds and the body of the statement from `s0` to `s4` are generated there. -/
def RangeStands (bc : Bytecodes) (fin : GenState) («from» «to» : Expr) (body : StmtList)
    (s0 s4 : GenState) (l : RangePlaces) : Prop :=
  ∃ s1 s2 s3 : GenState,
    (do generateExpr «from»; generateExpr «to» : Gen Unit) s0 = some ((), s1) ∧
      generateStmts body s2 = some ((), s3) ∧
      l = ⟨s1.place bc fin, s2.place bc fin, s3.place bc fin, s4.place bc fin⟩

theorem exitLoop_run {b : Option Nat} (hexit : exitLoop s = some (b, s')) :
    s'.bytes = s.bytes ∧ s'.fixups = s.fixups := by
  rw [exitLoop] at hexit
  split at hexit
  · cases hexit
    exact ⟨rfl, rfl⟩
  · cases hexit

theorem range_code {id : Nat} {from' to' : Expr} {body : StmtList} {s0 s11 : GenState}
    (hfin : Finished fin bc) (hgen : generateStmt (.range id from' to' body) s0 = some ((), s11))
    (hrest : Rest s s0 s11 fin out) :
    ∃ l, RangeStands bc fin from' to' body s0 s11 l ∧ RangeCode bc id l := by
  obtain ⟨_, sa, hfrom, hgen⟩ := bind_eq_some hgen
  obtain ⟨_, s1, hto, hgen⟩ := bind_eq_some hgen
  obtain ⟨top, _, htop, hgen⟩ := bind_eq_some hgen
  cases htop
  obtain ⟨_, s2, hop, hgen⟩ := bind_eq_some hgen
  obtain ⟨_, s3, hvar, hgen⟩ := bind_eq_some hgen
  obtain ⟨l, s4, hlabel, hgen⟩ := bind_eq_some hgen
  obtain ⟨cur, _, hcur, hgen⟩ := bind_eq_some hgen
  cases hcur
  obtain ⟨_, _, henter, hgen⟩ := bind_eq_some hgen
  cases henter
  obtain ⟨_, s6, hbody, hgen⟩ := bind_eq_some hgen
  obtain ⟨b, s7, hexit, hgen⟩ := bind_eq_some hgen
  obtain ⟨_, s8, hjump, hgen⟩ := bind_eq_some hgen
  obtain ⟨n, s9, hback, hgen⟩ := bind_eq_some hgen
  obtain ⟨_, s10, hdefine, hpop⟩ := bind_eq_some hgen
  -- the states from the top of the loop on
  have hdone1 : Done [] s0 s1 [] :=
    (does_generateExpr from' _ _ _ hfrom hrest.tidy).trans
      (does_generateExpr to' _ _ _ hto (does_generateExpr from' (H := []) _ _ _ hfrom hrest.tidy).tidy)
  have hend1 : Ended nowhere s1 := (hdone1.safe nowhere nofun nofun).1.ended hrest.ended
  have hdone2 := does_emitOp (H := []) _ _ _ _ hop hdone1.tidy
  have hend2 : Ended nowhere s2 := (hdone2.safe nowhere nofun nofun).1.ended hend1
  have hdone3 := does_addVarRef (H := []) id _ _ _ hvar hdone2.tidy
  have hlen2 : s2.fixups.length = s1.fixups.length := by
    cases hop
    rfl
  have hlen3 : s3.fixups.length = s2.fixups.length + 1 ∧ s3.loops = s2.loops := by
    cases hvar
    exact ⟨List.length_append, rfl⟩
  obtain ⟨hlen3, hloops3⟩ := hlen3
  have hend3 : Ended (fun r => r = s2.fixups.length) s3 :=
    (hend2.widen fun r hr => .inr (Nat.le_of_eq hr.symm)).same hdone3.grown hloops3
  have hR : ∀ r, r = s2.fixups.length → r < s3.fixups.length := by
    rintro r rfl
    omega
  obtain ⟨-, -, hg7, ht7, -⟩ := loop_left hR hend3 hdone3.tidy rfl hlabel
    (does_generateStmts body) hbody hexit
  have hdefined := loop_defined hR hend3 hdone3.tidy rfl hlabel (does_generateStmts body) hbody hexit
    hjump hback hdefine
  -- what has been added until the vector was finished
  have hdone4 : Done [] s3 s4 [] := (addLinkedLabel_spec hlabel hdone3.tidy).1
  have hdone8 := does_emitOp (H := []) _ _ _ _ hjump ht7
  have hdone9 := does_addKnownLabel (H := []) rfl _ _ _ hback hdone8.tidy
  have hdone10 := (does_defineLabel (H := b.toList) (fun _ hn => Option.mem_toList.mpr hn)) _ _ _ hdefine
    hdefined.tidy
  have hg11 : Grown s10 s11 := (does_popStack (H := []) 2 _ _ _ hpop hdone10.tidy).grown
  have hg9fin : Grown s9 fin := (hdone10.grown.trans hg11).trans hrest.grown'
  have hg8fin : Grown s8 fin := hdone9.grown.trans hg9fin
  have hg4fin : Grown s4 fin := (hg7.trans hdone8.grown).trans hg8fin
  have hg3fin : Grown s3 fin := hdone4.grown.trans hg4fin
  have hg2fin : Grown s2 fin := hdone3.grown.trans hg3fin
  -- the fixups stay as they are
  have hn : n = s8.fixups.length ∧ s9.fixups.length = s8.fixups.length + 1 := by
    cases hback
    exact ⟨rfl, List.length_append⟩
  have hl := (addLinkedLabel_run hlabel).1
  have hlen : s0.fixups.length ≤ s1.fixups.length ∧ s3.fixups.length + 1 ≤ s8.fixups.length ∧
      s9.fixups.length ≤ s11.fixups.length := by
    have hlen4 : s4.fixups.length = s3.fixups.length + 1 := by
      cases hlabel
      exact List.length_append
    have hlen48 := (hg7.trans hdone8.grown).length
    exact ⟨hdone1.grown.length, by omega, (hdone10.grown.trans hg11).length⟩
  have hpopped : s11.fixups = s10.fixups ∧ s11.loops = s10.loops ∧ s11.bytes = s9.bytes := by
    cases hpop
    cases hdefine
    exact ⟨rfl, rfl, rfl⟩
  obtain ⟨hfixups11, hloops11, hbytes11⟩ := hpopped
  obtain ⟨hstays, -⟩ := hrest.safe (fun r => (r = s2.fixups.length ∨ r = l) ∨ r = n) (by
      rintro r ((rfl | rfl) | rfl) <;> omega) (hdefined.ended.same hg11 hloops11)
  rw [hfixups11] at hstays
  -- where they are read
  obtain ⟨hopByte, hplace2⟩ := hfin.emitted hdone1.tidy hop hg2fin
  obtain ⟨hvarRead, hplace3⟩ := hfin.varRef hvar hg3fin (by
    rw [hstays _ (.inl (.inl rfl)), hdefined.stays _ rfl])
  obtain ⟨f, hf, hkind, hlabelRead, hplace4⟩ := hfin.linkedLabel hlabel hg4fin
  obtain ⟨hjumpByte, hplace8⟩ := hfin.emitted ht7 hjump hg8fin
  obtain ⟨hbackRead, hplace9⟩ := hfin.knownLabel rfl hback hg9fin (by
    rw [← hn.1, hstays _ (.inr rfl), hdefined.back])
  obtain ⟨f', hkind', hf'⟩ := hdefined.label
  rw [hstays _ (.inl (.inr rfl)), hf'] at hf
  cases hf
  rw [hfin.label hdefined.tidy hg9fin hkind'] at hlabelRead
  rw [hfin.label hdone1.tidy (hdone2.grown.trans hg2fin) rfl] at hbackRead
  have hplace7 : s7.place bc fin = s6.place bc fin := by
    rw [GenState.place, GenState.place, (exitLoop_run hexit).1]
  have hplace11 : s11.place bc fin = s9.place bc fin := by
    rw [GenState.place, GenState.place, hbytes11]
  refine ⟨⟨s1.place bc fin, s4.place bc fin, s6.place bc fin, s11.place bc fin⟩,
    ⟨s1, _, s6, ?_, hbody, rfl⟩, ?_⟩
  · show (generateExpr from' s0).bind (fun p => generateExpr to' p.2) = some ((), s1)
    rw [hfrom]
    exact hto
  constructor
  · exact hopByte
  · rw [hplace2] at hvarRead
    exact hvarRead
  · rw [hplace3, hplace2] at hlabelRead
    rw [hlabelRead, hplace11]
  · show s4.place bc fin = s1.place bc fin + 1 + _ + _
    omega
  · show s4.place bc fin ≤ s6.place bc fin
    rw [← hplace7]
    exact hg7.place_le
  · rw [hplace7] at hjumpByte
    exact hjumpByte
  · rw [hplace8, hplace7] at hbackRead
    exact hbackRead
  · show s11.place bc fin = s6.place bc fin + 1 + _
    omega

/-! ## The rounds of the loop -/

/-- The types that a loop counts in. -/
inductive BoundType where
  | int | obj
  deriving DecidableEq

/-- A bound, of 32 bits. -/
def BoundType.var : BoundType → Int32 → Var
  | .int, n => .int n
  | .obj, n => .obj n.toInt

/-- The run of the loop from the top on, with the values of the variable in each round.  The body
    may do anything to the variables, another thing in each round; it ends where it is to end. -/
inductive LoopRun (debug : Bool) (bc : Bytecodes) (literals : List Var) (l : RangePlaces) (id : Nat)
    (body : Nat → List Var → List Var) : Nat → RunFrame → List Var → RunFrame → Prop where
  | leave {n : Nat} {frame frame' : RunFrame} :
      runOpcode debug bc literals frame = some (.next (.opcode frame')) → frame'.pc ≠ l.start →
      LoopRun debug bc literals l id body n frame [] frame'
  | round {n : Nat} {frame frame1 frame2 frame' : RunFrame} {v : Var} {vs : List Var} :
      runOpcode debug bc literals frame = some (.next (.opcode frame1)) → frame1.pc = l.start →
      frame1.rtEnv[id]? = some v →
      runOpcode debug bc literals { frame1 with pc := l.stop, rtEnv := body n frame1.rtEnv } =
        some (.next (.opcode frame2)) →
      LoopRun debug bc literals l id body (n + 1) frame2 vs frame' →
      LoopRun debug bc literals l id body n frame (v :: vs) frame'

/-- `from`, `from+1`, ..., `to`. -/
def countedValues (type : BoundType) («from» «to» : Int32) : List Var :=
  (List.range («to».toInt - «from».toInt + 1).toNat).map fun i => type.var («from» + Int32.ofNat i)

/-- The loop runs the body once for each of the values, in order, and is left with the bounds
    removed from the stack. -/
def CountsRight (debug : Bool) (bc : Bytecodes) (l : RangePlaces) (id : Nat) (type : BoundType)
    («from» «to» : Int32) : Prop :=
  ∀ (literals : List Var) (body : Nat → List Var → List Var) (rts rtEnv : List Var),
    (∀ n env, (body n env).length = env.length) → id < rtEnv.length →
    ∃ rtEnv', ∀ vs frame', LoopRun debug bc literals l id body 0
      ⟨l.top, type.var «to» :: type.var «from» :: rts, rtEnv⟩ vs frame' ↔
        vs = countedValues type «from» «to» ∧ frame' = ⟨l.exit, rts, rtEnv'⟩

section

variable {debug : Bool} {literals : List Var} {l : RangePlaces} {id : Nat} {type : BoundType}
  {body : Nat → List Var → List Var} {a b : Int32} {rts rtEnv vs : List Var} {n : Nat}
  {frame frame' : RunFrame}

theorem succ_toInt (h : a.toInt < 2147483647) : (a + 1).toInt = a.toInt + 1 := by
  have hle := a.le_toInt
  rw [Int32.toInt_add, show (1 : Int32).toInt = 1 from rfl]
  exact Int.bmod_eq_of_le (by omega) (by omega)

/-- Both types are compared and counted in the same way. -/
theorem rangeNext_var (type : BoundType) (a b : Int32) :
    rangeNext (type.var a) (type.var b) = some (decide (b.toInt < a.toInt), type.var (a + 1)) := by
  cases type with
  | int =>
      have hlt : (a > b) = (b.toInt < a.toInt) := propext Int32.lt_iff_toInt_lt
      simp only [BoundType.var, rangeNext, hlt]
  | obj =>
      show some (decide (a.toInt > b.toInt), Var.obj (nextObj a.toInt)) = _
      rw [nextObj, Int32.ofInt_toInt]
      rfl

/-- `OP_FOR_RANGE` at the top of the loop. -/
theorem RangeCode.top (h : RangeCode bc id l) : runOpcode debug bc literals
    ⟨l.top, type.var b :: type.var a :: rts, rtEnv⟩ = some (.next (.opcode
      (if b.toInt < a.toInt then ⟨l.exit, rts, rtEnv⟩
      else ⟨l.start, type.var b :: type.var (a + 1) :: rts, rtEnv.set id (type.var a)⟩))) := by
  rw [runOpcode_forRange h.op]
  simp only [opForRange, readOperand, h.var, h.label, Option.map_some, Option.bind_eq_bind,
    Option.bind_some, forRange, rangeNext_var]
  by_cases hlt : b.toInt < a.toInt
  · rw [if_pos hlt, decide_eq_true hlt]
    rfl
  · rw [if_neg hlt, decide_eq_false hlt, h.start]
    rfl

/-- `OP_JUMP` at the end of the body. -/
theorem RangeCode.again (h : RangeCode bc id l) :
    runOpcode debug bc literals ⟨l.stop, rts, rtEnv⟩ = some (.next (.opcode ⟨l.top, rts, rtEnv⟩)) := by
  rw [runOpcode_jump h.jump]
  simp only [opJump, readOperand, h.back, Option.map_some, Option.bind_eq_bind, Option.bind_some,
    RunFrame.jump]

theorem RangeCode.exit_ne (h : RangeCode bc id l) : l.exit ≠ l.start := by
  have := h.order
  have := h.exit
  omega

/-- A loop has one run. -/
theorem LoopRun.unique {vs' : List Var} {frame'' : RunFrame}
    (h : LoopRun debug bc literals l id body n frame vs frame')
    (h' : LoopRun debug bc literals l id body n frame vs' frame'') : vs' = vs ∧ frame'' = frame' := by
  induction h generalizing vs' frame'' with
  | leave hrun hpc =>
      cases h' with
      | leave hrun' _ =>
          rw [hrun] at hrun'
          cases hrun'
          exact ⟨rfl, rfl⟩
      | round hrun' hpc' _ _ _ =>
          rw [hrun] at hrun'
          cases hrun'
          exact absurd hpc' hpc
  | round hrun hpc hv hjump _ ih =>
      cases h' with
      | leave hrun' hpc' =>
          rw [hrun] at hrun'
          cases hrun'
          exact absurd hpc hpc'
      | round hrun' _ hv' hjump' hrest' =>
          rw [hrun] at hrun'
          cases hrun'
          rw [hv] at hv'
          cases hv'
          rw [hjump] at hjump'
          cases hjump'
          obtain ⟨rfl, rfl⟩ := ih hrest'
          exact ⟨rfl, rfl⟩

/-! ### Counting -/

theorem countedValues_none (h : b.toInt < a.toInt) : countedValues type a b = [] := by
  have hlen : (b.toInt - a.toInt + 1).toNat = 0 := by omega
  rw [countedValues, hlen]
  rfl

theorem countedValues_some (h : a.toInt ≤ b.toInt) (ha : a.toInt < 2147483647) :
    countedValues type a b = type.var a :: countedValues type (a + 1) b := by
  have hlen : (b.toInt - a.toInt + 1).toNat = (b.toInt - (a + 1).toInt + 1).toNat + 1 := by
    rw [succ_toInt ha]
    omega
  rw [countedValues, hlen, List.range_succ_eq_map, List.map_cons, List.map_map, countedValues]
  congr 1
  · rw [show Int32.ofNat 0 = 0 from rfl, Int32.add_zero]
  · refine List.map_congr_left fun i _ => ?_
    show type.var (a + Int32.ofNat (i + 1)) = _
    rw [Int32.ofNat_add, Int32.add_comm (Int32.ofNat i), ← Int32.add_assoc]
    rfl

/-- A loop up to less than the greatest number comes to its end. -/
theorem RangeCode.counts (h : RangeCode bc id l) (hb : b.toInt < 2147483647)
    (hbody : ∀ n env, (body n env).length = env.length) (n : Nat) (a : Int32)
    (hid : id < rtEnv.length) : ∃ rtEnv', LoopRun debug bc literals l id body n
      ⟨l.top, type.var b :: type.var a :: rts, rtEnv⟩ (countedValues type a b) ⟨l.exit, rts, rtEnv'⟩ := by
  induction hk : (b.toInt - a.toInt + 1).toNat generalizing a n rtEnv with
  | zero =>
      have hlt : b.toInt < a.toInt := by omega
      rw [countedValues_none hlt]
      refine ⟨rtEnv, .leave ?_ h.exit_ne⟩
      rw [h.top, if_pos hlt]
  | succ k ih =>
      have hle : ¬ b.toInt < a.toInt := by omega
      have ha : a.toInt < 2147483647 := by omega
      have hset : id < (body n (rtEnv.set id (type.var a))).length := by
        rwa [hbody, List.length_set]
      obtain ⟨rtEnv', hrest⟩ := ih (n + 1) (a + 1) hset (by rw [succ_toInt ha]; omega)
      have hstep : runOpcode debug bc literals ⟨l.top, type.var b :: type.var a :: rts, rtEnv⟩ = _ := h.top
      rw [if_neg hle] at hstep
      rw [countedValues_some (by omega) ha]
      exact ⟨rtEnv', .round hstep rfl (List.getElem?_set_self hid) h.again hrest⟩

/-- A loop up to the greatest number never ends. -/
theorem RangeCode.endless (h : RangeCode bc id l) (hb : b.toInt = 2147483647)
    (hrun : LoopRun debug bc literals l id body n frame vs frame')
    (hframe : ∃ a rtEnv, frame = ⟨l.top, type.var b :: type.var a :: rts, rtEnv⟩) : False := by
  induction hrun with
  | leave hstep hpc =>
      obtain ⟨a, rtEnv, rfl⟩ := hframe
      have ha : a.toInt ≤ 2147483647 := a.toInt_le
      rw [h.top, if_neg (by omega)] at hstep
      cases hstep
      exact hpc rfl
  | round hstep hpc hv hjump hrest ih =>
      obtain ⟨a, rtEnv, rfl⟩ := hframe
      have ha : a.toInt ≤ 2147483647 := a.toInt_le
      rw [h.top, if_neg (by omega)] at hstep
      cases hstep
      rw [h.again] at hjump
      cases hjump
      exact ih ⟨a + 1, _, rfl⟩

theorem RangeCode.counts_iff (h : RangeCode bc id l) :
    CountsRight debug bc l id type a b ↔ b ≠ Int32.maxValue := by
  have hmax : b = Int32.maxValue ↔ b.toInt = 2147483647 := Int32.toInt_inj.symm
  constructor
  · intro hright hb
    obtain ⟨rtEnv', hrun⟩ := hright [] (fun _ env => env) [] (List.replicate (id + 1) .none)
      (fun _ _ => rfl) (by simp)
    exact h.endless (hmax.mp hb) ((hrun _ _).mpr ⟨rfl, rfl⟩) ⟨a, _, rfl⟩
  · intro hb literals body rts rtEnv hbody hid
    have hle : b.toInt ≤ 2147483647 := b.toInt_le
    rw [Ne, hmax] at hb
    have hlt : b.toInt < 2147483647 := by omega
    obtain ⟨rtEnv', hrun⟩ := h.counts hlt hbody 0 a hid
    refine ⟨rtEnv', fun vs frame' => ⟨hrun.unique, ?_⟩⟩
    rintro ⟨rfl, rfl⟩
    exact hrun

end

/-- Wherever a `for` over a range stands in a program, its code counts right but up to the greatest
    number. -/
theorem for_range_counts_iff {stmts : StmtList} {gstate : GState} {id : Nat} {from' to' : Expr}
    {body : StmtList} (hmem : .stmt (.range id from' to' body) ∈ stmts.parts)
    (hrun : stmts.code (initState gstate) = some ((), fin)) (hfin : Finished fin bc) :
    (∃ s0 s4, Occurs (.stmt (.range id from' to' body)) stmts gstate s0 s4) ∧
      ∀ s0 s4, Occurs (.stmt (.range id from' to' body)) stmts gstate s0 s4 →
        ∃ l, RangeStands bc fin from' to' body s0 s4 l ∧
          ∀ (debug : Bool) (type : BoundType) (a b : Int32),
            CountsRight debug bc l id type a b ↔ b ≠ Int32.maxValue := by
  refine ⟨occurs_of_mem hmem hrun, fun s0 s4 hoccurs => ?_⟩
  obtain ⟨l, hstands, hcode⟩ := range_code hfin hoccurs.gen (hoccurs.rest hrun)
  exact ⟨l, hstands, fun _ _ _ _ => hcode.counts_iff⟩

/-- `for v in [1..2147483647] endfor`. -/
def longRange : StmtList :=
  .cons (.range 0 (.var (.int 1)) (.var (.int 2147483647)) .nil) .nil

theorem longRange_fits : longRange.operandsFit initGstate = true := by decide +kernel

theorem longRange_mem :
    .stmt (.range 0 (.var (.int 1)) (.var (.int 2147483647)) .nil) ∈ longRange.parts :=
  List.mem_cons_self

/-- One of its runs does not end. -/
theorem for_range_endless : ∃ fin bc s0 s4 l, Finished fin bc ∧
    longRange.code (initState initGstate) = some ((), fin) ∧
    Occurs (.stmt (.range 0 (.var (.int 1)) (.var (.int 2147483647)) .nil)) longRange initGstate s0 s4 ∧
    RangeStands bc fin (.var (.int 1)) (.var (.int 2147483647)) .nil s0 s4 l ∧
    ¬ CountsRight true bc l 0 .int 1 2147483647 := by
  obtain ⟨fin, bc, hrun, hfin⟩ := finished_of_fit longRange_fits
  obtain ⟨s0, s4, hoccurs⟩ := occurs_of_mem longRange_mem hrun
  obtain ⟨l, hstands, hcode⟩ := range_code hfin hoccurs.gen (hoccurs.rest hrun)
  exact ⟨fin, bc, s0, s4, l, hfin, hrun, hoccurs, hstands, fun h => hcode.counts_iff.mp h rfl⟩

/-- The same loop up to 10. -/
theorem for_range_counts_sample : ∃ fin bc l, Finished fin bc ∧
    longRange.code (initState initGstate) = some ((), fin) ∧ CountsRight true bc l 0 .int 1 10 := by
  obtain ⟨fin, bc, hrun, hfin⟩ := finished_of_fit longRange_fits
  obtain ⟨⟨s0, s4, hoccurs⟩, hall⟩ := for_range_counts_iff longRange_mem hrun hfin
  obtain ⟨l, -, hright⟩ := hall s0 s4 hoccurs
  exact ⟨fin, bc, l, hfin, hrun, (hright true .int 1 10).mpr (by decide)⟩

end Waverous
