import Waverous.CodeStands
import Waverous.CodeParts
import Mathlib.Data.List.Perm.Basic

/-! # What becomes of labels — `code_gen.c`

    A function of the generator owns the chains of the labels that are still to be defined: they
    end, and no label is in two of them or in one of a loop around.  So what is put into a label when
    it is defined is there when the vector is finished.  `Puts` follows a function in both
    directions: what it owns afterwards is known from what it has owned, and which of the fixups are
    final already is known from what comes later. -/

namespace Waverous

open Links

variable {α β : Type} {s s' s'' fin : GenState} {bc : Bytecodes} {lits : List Var} {L L' L'' : List Nat}
  {r l b target : Nat}

/-! ## Literals -/

/-- A literal that is the same as any literal that it is equal to: 0.0 is equal to -0.0. -/
def Var.PlainLiteral : Var → Prop
  | .int _ | .obj _ | .str _ | .err _ => True
  | .float bits => bits ≠ 0x8000000000000000
  | _ => False

/-- A double whose bits but the first are 0. -/
theorem zero_bits {a : UInt64} (h : a &&& 0x7FFFFFFFFFFFFFFF = 0) : a = 0 ∨ a = 0x8000000000000000 := by
  have hbits : ∀ i : Fin 64, (0x7FFFFFFFFFFFFFFF : UInt64).toBitVec.getLsbD i = decide (i.val < 63) := by
    decide
  have hlow : ∀ i, i < 63 → a.toBitVec.getLsbD i = false := by
    intro i hi
    have hand := congrArg (fun x : UInt64 => x.toBitVec.getLsbD i) h
    simp only [UInt64.toBitVec_and, BitVec.getLsbD_and, hbits ⟨i, by omega⟩, hi, decide_true,
      Bool.and_true] at hand
    rw [hand]
    exact BitVec.getLsbD_zero
  have hhigh : ∀ i : Fin 64, (0x8000000000000000 : UInt64).toBitVec.getLsbD i = decide (i.val = 63) := by
    decide
  cases htop : a.toBitVec.getLsbD 63 with
  | false =>
      left
      refine UInt64.toBitVec_inj.mp (BitVec.eq_of_getLsbD_eq fun i hi => ?_)
      rw [show (0 : UInt64).toBitVec.getLsbD i = false from BitVec.getLsbD_zero]
      by_cases hi63 : i = 63
      · rw [hi63, htop]
      · exact hlow i (by omega)
  | true =>
      right
      refine UInt64.toBitVec_inj.mp (BitVec.eq_of_getLsbD_eq fun i hi => ?_)
      rw [hhigh ⟨i, hi⟩]
      by_cases hi63 : i = 63
      · simp only [hi63, htop, decide_true]
      · simp only [hlow i (by omega), hi63, decide_false]

theorem plain_eq {v lit : Var} (hv : v.PlainLiteral) (hlit : lit.PlainLiteral)
    (h : (sameType v lit && equality true v lit) = true) : lit = v := by
  rw [Bool.and_eq_true] at h
  obtain ⟨htype, heq⟩ := h
  cases v <;> cases lit <;> simp only [sameType, Bool.false_eq_true] at htype
  case float.float a b =>
    simp only [equality, floatEq, Bool.and_eq_true, Bool.or_eq_true, beq_iff_eq] at heq
    rcases heq.2 with rfl | hzero
    · rfl
    · have hboth : a &&& 0x7FFFFFFFFFFFFFFF = 0 ∧ b &&& 0x7FFFFFFFFFFFFFFF = 0 := by
        have hor : (a ||| b).toNat &&& (0x7FFFFFFFFFFFFFFF : UInt64).toNat = 0 := by
          rw [← UInt64.toNat_and, hzero]
          rfl
        rw [UInt64.toNat_or, Nat.and_or_distrib_right, Nat.or_eq_zero_iff] at hor
        exact ⟨UInt64.toNat_inj.mp (by rw [UInt64.toNat_and, hor.1]; rfl),
          UInt64.toNat_inj.mp (by rw [UInt64.toNat_and, hor.2]; rfl)⟩
      have ha : a = 0 := (zero_bits hboth.1).resolve_right hv
      have hb : b = 0 := (zero_bits hboth.2).resolve_right hlit
      rw [ha, hb]
  case list.list => exact absurd hv id
  all_goals
    simp only [equality, beq_iff_eq, if_true] at heq
    rw [heq]

/-! ## Chains that wait -/

/-- The place that a label leads to when the vector is finished. -/
def Bytecodes.goal (bc : Bytecodes) (fin : GenState) (l : Nat) : Nat :=
  (fin.fixups[l]?.map bc.operandValue).getD 0

/-- The links of a state. -/
abbrev GenState.links (s : GenState) : Nat → Option (Option Nat) := nextLabel s.fixups

theorem On.base (h : On s.links r l) : (s.links r).isSome := by
  induction h with
  | here hr => exact hr
  | link _ _ _ ih => exact ih

/-- The chains from `H` end, and no label is in two of them. -/
structure Chained (H : List Nat) (s : GenState) : Prop where
  ended : ∀ l ∈ H, Off s.links nowhere l
  apart : H.Pairwise fun l l' => ∀ r, On s.links r l → ¬ On s.links r l'

theorem Chained.perm {H H' : List Nat} (h : Chained H s) (hperm : H.Perm H') : Chained H' s where
  ended l hl := h.ended l (hperm.mem_iff.mpr hl)
  apart := h.apart.perm hperm fun hapart r hr hr' => hapart r hr' hr

/-- The chains are there when fixups have been added. -/
theorem Chained.extends {H : List Nat} (h : Chained H s) (hg : Grown s s') : Chained H s' where
  ended l hl := (h.ended l hl).extends hg.next
  apart := h.apart.imp_of_mem fun {l l'} hl hl' hapart r hr hr' =>
    hapart r (((h.ended l hl).on_iff hg.next).mp hr) (((h.ended l' hl').on_iff hg.next).mp hr')

theorem Chained.tail {H : List Nat} (h : Chained (l :: H) s) : Chained H s where
  ended l' hl' := h.ended l' (List.mem_cons_of_mem _ hl')
  apart := (List.pairwise_cons.mp h.apart).2

theorem Chained.append_right {H H' : List Nat} (h : Chained (H ++ H') s) : Chained H' s where
  ended l hl := h.ended l (List.mem_append_right _ hl)
  apart := (List.pairwise_append.mp h.apart).2.1

/-- What is not in the chains is final, and all labels of a chain will lead to the same place. -/
structure Settled (fin : GenState) (bc : Bytecodes) (H : List Nat) (s : GenState) : Prop where
  final : ∀ (r : Nat) (f : Fixup), s.fixups[r]? = some f → (∀ l ∈ H, ¬ On s.links r l) →
    fin.fixups[r]? = some f
  goals : ∀ l ∈ H, ∀ r, On s.links r l → bc.goal fin r = bc.goal fin l

theorem Settled.perm {H H' : List Nat} (h : Settled fin bc H s) (hperm : H.Perm H') :
    Settled fin bc H' s where
  final r f hr hoff := h.final r f hr fun l hl => hoff l (hperm.mem_iff.mp hl)
  goals l hl := h.goals l (hperm.mem_iff.mpr hl)

/-- Back over fixups that have been added. -/
theorem Settled.before {H : List Nat} (h : Settled fin bc H s') (hc : Chained H s) (hg : Grown s s')
    (hkept : ∀ (r : Nat) (f : Fixup), s.fixups[r]? = some f → s'.fixups[r]? = some f) : Settled fin bc H s where
  final r f hr hoff := h.final r f (hkept r f hr) fun l hl hon =>
    hoff l hl (((hc.ended l hl).on_iff hg.next).mp hon)
  goals l hl r hon := h.goals l hl r (hon.extends hg.next)

/-! ### The labels of a state -/

/-- The labels that wait: those of `L`, and the ends of the loops. -/
def GenState.heads (L : List Nat) (s : GenState) : List Nat := L ++ s.loops.filterMap Loop.bottomLabel

theorem heads_cons (l : Nat) (L : List Nat) (s : GenState) : s.heads (l :: L) = l :: s.heads L := rfl

theorem heads_append (H L : List Nat) (s : GenState) : s.heads (H ++ L) = H ++ s.heads L :=
  List.append_assoc H L _

theorem heads_perm (hperm : L.Perm L') : (s.heads L).Perm (s.heads L') := hperm.append_right _

/-- What is always so. -/
structure GenState.Neat (s : GenState) : Prop where
  tidy : s.Tidy
  down : ∀ l n, s.links l = some (some n) → n < l
  tops : ∀ loop ∈ s.loops, loop.topLabel.next = none
  exits : ∀ loop ∈ s.loops, loop.bottomLabel.isSome
  plain : ∀ v ∈ s.gstate.literals, v.PlainLiteral

/-- A state in which the labels of `L` wait besides those of loops. -/
structure Owned (L : List Nat) (s : GenState) : Prop where
  neat : s.Neat
  chained : Chained (s.heads L) s

theorem Owned.perm (h : Owned L s) (hperm : L.Perm L') : Owned L' s :=
  ⟨h.neat, h.chained.perm (heads_perm hperm)⟩

/-- A state that becomes `fin`, when the labels of `L` and those of loops have been defined. -/
structure Later (fin : GenState) (bc : Bytecodes) (lits : List Var) (L : List Nat) (s : GenState) : Prop where
  grown : Grown s fin
  literals : s.gstate.literals <+: lits
  settled : Settled fin bc (s.heads L) s

theorem Later.perm (h : Later fin bc lits L s) (hperm : L.Perm L') : Later fin bc lits L' s :=
  ⟨h.grown, h.literals, h.settled.perm (heads_perm hperm)⟩

/-- The place of a loop. -/
def Bytecodes.loopPlace (bc : Bytecodes) (fin : GenState) (loop : Loop) : LoopPlace where
  id := loop.id
  top := bc.operandValue loop.topLabel
  topDepth := loop.topStack
  exit := bc.goal fin (loop.bottomLabel.getD 0)
  exitDepth := loop.bottomStack

/-- The places of the loops of a state. -/
def Bytecodes.places (bc : Bytecodes) (fin s : GenState) : List LoopPlace := s.loops.map (bc.loopPlace fin)

/-! ## Following a function in both directions -/

/-- How deep the stack is, and which of its cells is saved. -/
def GenState.cells (s : GenState) : Int × Int := (s.curStack, s.savedStack)

/-- From a stack `v` and the labels `L` on, `m` comes to a stack `v'` and the labels that `L'`
    gives.  If that becomes `fin`, then what was before `m` does too, and `code` has been put. -/
def Puts (fin : GenState) (bc : Bytecodes) (lits : List Var) (v : Int × Int) (L : List Nat) (m : Gen α)
    (v' : Int × Int) (L' : α → List Nat) (code : List LoopPlace → α → Stretch) : Prop :=
  ∀ s a s', m s = some (a, s') → s.cells = v → Owned L s →
    s'.cells = v' ∧ Owned (L' a) s' ∧ (Later fin bc lits (L' a) s' →
      Later fin bc lits L s ∧ bc.places fin s = bc.places fin s' ∧
        code (bc.places fin s) a (s.place bc fin) (s'.place bc fin))

section

variable {v v' v'' : Int × Int} {m : Gen α} {f : α → Gen β} {A : α → List Nat} {B : β → List Nat}
  {code code' : List LoopPlace → α → Stretch} {next : α → List LoopPlace → β → Stretch}

theorem Puts.mono (h : Puts fin bc lits v L m v' A code)
    (hsub : ∀ P a pc pc', code P a pc pc' → code' P a pc pc') : Puts fin bc lits v L m v' A code' := by
  intro s a s' hrun hv hown
  obtain ⟨hv', hown', hback⟩ := h s a s' hrun hv hown
  refine ⟨hv', hown', fun hlater => ?_⟩
  obtain ⟨hlater', hplaces, hcode⟩ := hback hlater
  exact ⟨hlater', hplaces, hsub _ _ _ _ hcode⟩

/-- One function after the other, when something is known of the result of the first. -/
theorem Puts.knowing {K : α → Prop} (h : Puts fin bc lits v L m v' A code)
    (hres : ∀ s a s', m s = some (a, s') → K a)
    (hf : ∀ a, K a → Puts fin bc lits v' (A a) (f a) v'' B (next a)) :
    Puts fin bc lits v L (m >>= f) v'' B
      fun P b pc pc' => ∃ a p, K a ∧ code P a pc p ∧ next a P b p pc' := by
  intro s b s'' hrun hv hown
  obtain ⟨a, s', hm, hrun⟩ := bind_eq_some hrun
  have hknown := hres s a s' hm
  obtain ⟨hv', hown', hback⟩ := h s a s' hm hv hown
  obtain ⟨hv'', hown'', hback'⟩ := hf a hknown s' b s'' hrun hv' hown'
  refine ⟨hv'', hown'', fun hlater => ?_⟩
  obtain ⟨hlater', hplaces', hnext⟩ := hback' hlater
  obtain ⟨hlater'', hplaces, hcode⟩ := hback hlater'
  refine ⟨hlater'', hplaces.trans hplaces', a, s'.place bc fin, hknown, hcode, ?_⟩
  rw [hplaces]
  exact hnext

/-- One function after the other. -/
theorem Puts.bind (h : Puts fin bc lits v L m v' A code)
    (hf : ∀ a, Puts fin bc lits v' (A a) (f a) v'' B (next a)) :
    Puts fin bc lits v L (m >>= f) v'' B
      fun P b pc pc' => ∃ a p, code P a pc p ∧ next a P b p pc' := by
  refine (h.knowing (K := fun _ => True) (fun _ _ _ _ => trivial) fun a _ => hf a).mono ?_
  rintro _ _ _ _ ⟨a, p, -, hcode, hnext⟩
  exact ⟨a, p, hcode, hnext⟩

/-- One function after the other, when the first gives nothing. -/
theorem Puts.seq {m : Gen Unit} {f : Unit → Gen β} {C : List LoopPlace → Stretch}
    {next : List LoopPlace → β → Stretch} (h : Puts fin bc lits v L m v' (fun _ => L') fun P _ => C P)
    (hf : Puts fin bc lits v' L' (f ()) v'' B next) :
    Puts fin bc lits v L (m >>= f) v'' B fun P b pc pc' => ∃ p, C P pc p ∧ next P b p pc' := by
  refine (h.bind fun _ => hf).mono ?_
  rintro _ _ _ _ ⟨-, p, hcode, hnext⟩
  exact ⟨p, hcode, hnext⟩

/-- Two functions that put one thing each. -/
theorem Puts.pair {m m' : Gen Unit} {C C' : Stretch}
    (h : Puts fin bc lits v L m v' (fun _ => L') fun _ _ => C)
    (h' : Puts fin bc lits v' L' m' v'' (fun _ => L'') fun _ _ => C') :
    Puts fin bc lits v L (do m; m') v'' (fun _ => L'') fun _ _ => .all [C, C'] := by
  refine (h.seq h').mono ?_
  rintro _ _ pc pc' ⟨p, hcode, hcode'⟩
  exact ⟨p, hcode, pc', hcode', rfl⟩

/-- The labels may come in another order. -/
theorem Puts.reorder (h : Puts fin bc lits v L' m v' A code) (hperm : L.Perm L') :
    Puts fin bc lits v L m v' A code := by
  intro s a s' hrun hv hown
  obtain ⟨hv', hown', hback⟩ := h s a s' hrun hv (hown.perm hperm)
  refine ⟨hv', hown', fun hlater => ?_⟩
  obtain ⟨hlater', hrest⟩ := hback hlater
  exact ⟨hlater'.perm hperm.symm, hrest⟩

/-- A stack that is the same one. -/
theorem Puts.to (h : Puts fin bc lits v L m v' A code) (hv : v' = v'') :
    Puts fin bc lits v L m v'' A code := hv ▸ h

theorem puts_pure {a : α} : Puts fin bc lits v (A a) (pure a : Gen α) v A
    fun _ b pc pc' => b = a ∧ pc' = pc := by
  intro s b s' hrun hv hown
  cases hrun
  exact ⟨hv, hown, fun hlater => ⟨hlater, rfl, rfl, rfl⟩⟩

theorem puts_fail : Puts fin bc lits v L (panic : Gen α) v' A code := by
  intro s a s' hrun
  cases hrun

end

/-! ## Bytes and operands -/

/-- From `s` to `s'`, bytes and fixups have been added, but no label that is to be defined. -/
structure Adds (s s' : GenState) : Prop where
  done : Done [] s s' []
  loops : s'.loops = s.loops
  fixups : ∃ F : List Fixup, s'.fixups = s.fixups ++ F ∧ ∀ f ∈ F, f.next = none
  literals : s.gstate.literals <+: s'.gstate.literals
  plain : (∀ v ∈ s.gstate.literals, v.PlainLiteral) → ∀ v ∈ s'.gstate.literals, v.PlainLiteral

theorem Adds.heads (h : Adds s s') : s'.heads L = s.heads L := by
  rw [GenState.heads, h.loops, GenState.heads]

theorem Adds.kept (h : Adds s s') {r : Nat} {f : Fixup} (hr : s.fixups[r]? = some f) :
    s'.fixups[r]? = some f := by
  obtain ⟨F, hF, -⟩ := h.fixups
  rw [hF, List.getElem?_append_left (List.getElem?_eq_some_iff.mp hr).1]
  exact hr

theorem Adds.owned (h : Adds s s') (hown : Owned L s) : Owned L s' where
  neat :=
    { tidy := h.done.tidy
      down := by
        intro l n hl
        obtain ⟨f, hf, hkind, hnext⟩ := nextLabel_some.mp hl
        obtain ⟨F, hF, hlast⟩ := h.fixups
        rw [hF, List.getElem?_append] at hf
        split at hf
        next => exact hown.neat.down l n (nextLabel_some.mpr ⟨f, hf, hkind, hnext⟩)
        next =>
          rw [hlast f (List.mem_of_getElem? hf)] at hnext
          cases hnext
      tops := h.loops ▸ hown.neat.tops
      exits := h.loops ▸ hown.neat.exits
      plain := h.plain hown.neat.plain }
  chained := h.heads ▸ hown.chained.extends h.done.grown

theorem Adds.later (h : Adds s s') (hown : Owned L s) (hl : Later fin bc lits L s') :
    Later fin bc lits L s ∧ bc.places fin s = bc.places fin s' := by
  refine ⟨⟨h.done.grown.trans hl.grown, h.literals.trans hl.literals, ?_⟩, ?_⟩
  · exact (h.heads (L := L) ▸ hl.settled).before hown.chained h.done.grown fun _ _ => h.kept
  · rw [Bytecodes.places, Bytecodes.places, h.loops]

/-- What is new is final. -/
theorem Adds.final (h : Adds s s') (hown : Owned L s) (hl : Later fin bc lits L s') {r : Nat} {f : Fixup}
    (hr : s.fixups.length ≤ r) (hf : s'.fixups[r]? = some f) : fin.fixups[r]? = some f := by
  refine hl.settled.final r f hf fun l hmem hon => ?_
  rw [h.heads] at hmem
  have hbase := On.base (((hown.chained.ended l hmem).on_iff h.done.grown.next).mp hon)
  rw [GenState.links, nextLabel, List.getElem?_eq_none hr] at hbase
  cases hbase

/-- A function that only adds. -/
theorem puts_adds {v v' : Int × Int} {m : Gen α} {code : List LoopPlace → α → Stretch}
    (h : ∀ s a s', m s = some (a, s') → s.cells = v → s.Tidy → s'.cells = v' ∧ Adds s s')
    (hcode : ∀ s a s', m s = some (a, s') → s.Neat → Grown s' fin → s'.gstate.literals <+: lits →
      (∀ (r : Nat) (f : Fixup), s.fixups.length ≤ r → s'.fixups[r]? = some f → fin.fixups[r]? = some f) →
      code (bc.places fin s) a (s.place bc fin) (s'.place bc fin)) :
    Puts fin bc lits v L m v' (fun _ => L) code := by
  intro s a s' hrun hv hown
  obtain ⟨hv', hadds⟩ := h s a s' hrun hv hown.neat.tidy
  refine ⟨hv', hadds.owned hown, fun hl => ?_⟩
  obtain ⟨hlater, hplaces⟩ := hadds.later hown hl
  exact ⟨hlater, hplaces,
    hcode s a s' hrun hown.neat hl.grown hl.literals fun _ _ => hadds.final hown hl⟩

section

variable {v : Int × Int}

theorem puts_emitByte (hfin : Finished fin bc) (b : UInt8) :
    Puts fin bc lits v L (emitByte b) v (fun _ => L) fun _ _ => byteAt bc b := by
  refine puts_adds (fun s _ s' hrun hv ht => ?_) fun s _ s' hrun hneat hg _ _ => ?_
  · have hdone := does_emitByte (H := []) b _ _ _ hrun ht
    cases hrun
    exact ⟨hv, hdone, rfl, ⟨[], (List.append_nil _).symm, nofun⟩, List.prefix_rfl, id⟩
  · exact hfin.emitted hneat.tidy hrun hg

theorem puts_emitOp (hfin : Finished fin bc) (op : Opcode) :
    Puts fin bc lits v L (emitOp op) v (fun _ => L) fun _ _ => opAt bc op := puts_emitByte hfin _

theorem puts_emitExtended (hfin : Finished fin bc) (eop : ExtendedOpcode) :
    Puts fin bc lits v L (emitExtended eop) v (fun _ => L) fun _ _ => extendedAt bc eop :=
  (puts_emitOp hfin .extended).pair (puts_emitByte hfin _)

/-- A fixup that is never to be defined. -/
theorem adds_fixup {g : Fixup} {m : Gen α} {a : α} (hrun : m s = some (a, s'))
    (hdoes : ∀ H, Does H m noLabels) (ht : s.Tidy) (hloops : s'.loops = s.loops)
    (hfixups : s'.fixups = s.fixups ++ [g]) (hnext : g.next = none)
    (hlits : s'.gstate.literals = s.gstate.literals) : Adds s s' where
  done := hdoes [] _ _ _ hrun ht
  loops := hloops
  fixups := ⟨[g], hfixups, fun f hf => by rw [List.mem_singleton.mp hf, hnext]⟩
  literals := hlits ▸ List.prefix_rfl
  plain h := by rwa [hlits]

theorem puts_addVarRef (hfin : Finished fin bc) (slot : Nat) :
    Puts fin bc lits v L (addVarRef slot) v (fun _ => L) fun _ _ => varRefAt bc slot := by
  refine puts_adds (fun s _ s' hrun hv ht => ?_) fun s _ s' hrun _ hg _ hfinal => ?_
  · have hrun' := hrun
    cases hrun
    exact ⟨hv, adds_fixup hrun' (fun _ => does_addVarRef slot) ht rfl rfl rfl rfl⟩
  · refine hfin.varRef hrun hg ?_
    obtain ⟨f, -, -, -, hfixups⟩ := addVarRef_run hrun
    rw [hfixups, List.getElem?_concat_length]
    exact hfinal _ _ (Nat.le_refl _) (by rw [hfixups, List.getElem?_concat_length])

/-- The operand of a fixup that is final. -/
theorem Finished.finalOperand (hfin : Finished fin bc) {g : Fixup} (hbytes : s'.bytes = s.bytes ++ [0])
    (hfixups : s'.fixups = s.fixups ++ [{ g with pc := s.bytes.length }]) (hg : Grown s' fin)
    (hfinal : ∀ (r : Nat) (f : Fixup), s.fixups.length ≤ r → s'.fixups[r]? = some f → fin.fixups[r]? = some f) :
    operandAt bc (bc.operandSize g.kind) (bc.operandValue g) (s.place bc fin) (s'.place bc fin) := by
  obtain ⟨f', hf', -, hread, hplace⟩ := hfin.operand hbytes hfixups hg
  have hget := hfinal _ _ (Nat.le_refl _) (by rw [hfixups, List.getElem?_concat_length])
  rw [hf'] at hget
  cases hget
  exact ⟨hread, hplace⟩

theorem puts_addStackRef (hfin : Finished fin bc) (index : Int) :
    Puts fin bc lits v L (addStackRef index) v (fun _ => L) fun _ _ => stackAt bc index := by
  refine puts_adds (fun s _ s' hrun hv ht => ?_) fun s _ s' hrun _ hg _ hfinal => ?_
  · have hrun' := hrun
    cases hrun
    exact ⟨hv, adds_fixup hrun' (fun _ => does_addStackRef index) ht rfl rfl rfl rfl⟩
  · cases hrun
    exact hfin.finalOperand
      (g := ⟨.stack, 0, index.toNat, s.numLiterals, s.numForks, s.numVarRefs, s.numLabels, s.numStacks, none⟩)
      rfl rfl hg hfinal

theorem puts_addPseudoLabel (hfin : Finished fin bc) (value : Nat) :
    Puts fin bc lits v L (addPseudoLabel value) v (fun _ => L) fun _ _ => labelAt bc value := by
  refine puts_adds (fun s _ s' hrun hv ht => ?_) fun s _ s' hrun _ hg _ hfinal => ?_
  · have hrun' := hrun
    cases hrun
    exact ⟨hv, adds_fixup hrun' (fun _ => does_addPseudoLabel value) ht rfl rfl rfl rfl⟩
  · cases hrun
    have hop := hfin.finalOperand (g := ⟨.label, 0, value, 0, 0, 0, 0, 0, none⟩) rfl rfl hg hfinal
    simp only [Bytecodes.operandValue, Nat.zero_mul, Nat.add_zero] at hop
    exact hop

theorem puts_addKnownLabel (hfin : Finished fin bc) {g : Fixup} (hkind : g.kind = .label)
    (hnext : g.next = none) :
    Puts fin bc lits v L (addKnownLabel g) v (fun _ => L) fun _ _ => labelAt bc (bc.operandValue g) := by
  refine puts_adds (fun s _ s' hrun hv ht => ?_) fun s _ s' hrun _ hg _ hfinal => ?_
  · have hrun' := hrun
    cases hrun
    exact ⟨hv, adds_fixup hrun' (fun _ => does_addKnownLabel hkind) ht rfl rfl hnext rfl⟩
  · cases hrun
    have hop := hfin.finalOperand (g := g) rfl rfl hg hfinal
    rw [hkind] at hop
    exact hop

theorem literalIndex_get {w : Var} {literals : List Var} (hw : w.PlainLiteral)
    (hplain : ∀ v ∈ literals, v.PlainLiteral) :
    (internLiteral w literals)[literalIndex w literals]? = some w := by
  cases hfind : literals.findIdx? fun lit => sameType w lit && equality true w lit with
  | none =>
      have hidx : literalIndex w literals = literals.length := by rw [literalIndex, hfind]; rfl
      rw [internLiteral, if_pos hidx, hidx, List.getElem?_concat_length]
  | some i =>
      have hidx : literalIndex w literals = i := by rw [literalIndex, hfind]; rfl
      obtain ⟨hlt, htest, -⟩ := List.findIdx?_eq_some_iff_getElem.mp hfind
      rw [internLiteral, if_neg (by omega), hidx, List.getElem?_eq_getElem hlt,
        plain_eq hw (hplain _ (List.getElem_mem hlt)) htest]

theorem internLiteral_prefix (w : Var) (literals : List Var) : literals <+: internLiteral w literals := by
  unfold internLiteral
  split
  · exact List.prefix_append _ _
  · exact List.prefix_rfl

theorem internLiteral_plain {w : Var} {literals : List Var} (hw : w.PlainLiteral)
    (hplain : ∀ v ∈ literals, v.PlainLiteral) : ∀ v ∈ internLiteral w literals, v.PlainLiteral := by
  unfold internLiteral
  split
  · intro v hv
    rcases List.mem_append.mp hv with hv | hv
    · exact hplain v hv
    · exact List.mem_singleton.mp hv ▸ hw
  · exact hplain

theorem puts_addLiteral (hfin : Finished fin bc) {w : Var} (hw : w.PlainLiteral) :
    Puts fin bc lits v L (addLiteral w) v (fun _ => L) fun _ _ => literalAt bc lits w := by
  refine puts_adds (fun s _ s' hrun hv ht => ?_) fun s _ s' hrun hneat hg hlits hfinal => ?_
  · have hdone := does_addLiteral (H := []) w _ _ _ hrun ht
    cases hrun
    exact ⟨hv, hdone, rfl, ⟨[_], rfl, fun f hf => by rw [List.mem_singleton.mp hf]⟩,
      internLiteral_prefix w _, internLiteral_plain hw⟩
  · cases hrun
    refine ⟨literalIndex w s.gstate.literals, ?_, ?_⟩
    · have hget := literalIndex_get hw hneat.plain
      obtain ⟨rest, hrest⟩ := hlits
      rw [← hrest, List.getElem?_append_left (List.getElem?_eq_some_iff.mp hget).1]
      exact hget
    · exact hfin.finalOperand
        (g := ⟨.literal, 0, literalIndex w s.gstate.literals, s.numLiterals, s.numForks, s.numVarRefs,
          s.numLabels, s.numStacks, none⟩) rfl rfl hg hfinal

/-- A function that only changes the stack. -/
theorem puts_stack {v' : Int × Int} {m : Gen α} (hm : Silent m)
    (h : ∀ s a s', m s = some (a, s') → s.cells = v → s'.cells = v' ∧ s'.gstate = s.gstate) :
    Puts fin bc lits v L m v' (fun _ => L) fun _ _ => noCode := by
  refine puts_adds (fun s a s' hrun hv ht => ?_) fun s a s' hrun _ _ _ _ => ?_
  · obtain ⟨-, hfixups, hloops, -⟩ := hm s a s' hrun
    obtain ⟨hv', hgstate⟩ := h s a s' hrun hv
    exact ⟨hv', (hm.does (H := []) _ _ _ hrun ht), hloops, ⟨[], by rw [hfixups, List.append_nil], nofun⟩,
      hgstate ▸ List.prefix_rfl, hgstate ▸ id⟩
  · obtain ⟨hbytes, -⟩ := hm s a s' hrun
    rw [noCode, GenState.place, hbytes]
    rfl

theorem puts_pushStack {c d saved : Int} (n : Nat) (h : d = c + n) :
    Puts fin bc lits (c, saved) L (pushStack n) (d, saved) (fun _ => L) fun _ _ => noCode := by
  refine puts_stack (silent_pushStack n) fun s a s' hrun hv => ?_
  cases hrun
  cases hv
  exact ⟨h ▸ rfl, rfl⟩

theorem puts_popStack {c d saved : Int} (n : Nat) (h : c = d + n) :
    Puts fin bc lits (c, saved) L (popStack n) (d, saved) (fun _ => L) fun _ _ => noCode := by
  refine puts_stack (silent_popStack n) fun s a s' hrun hv => ?_
  cases hrun
  cases hv
  refine ⟨?_, rfl⟩
  show (s.curStack - n, s.savedStack) = (d, s.savedStack)
  rw [h, Int.add_sub_cancel]

/-- After something that puts no code. -/
theorem Puts.silent {v' v'' : Int × Int} {m : Gen Unit} {f : Unit → Gen β} {B : β → List Nat}
    {next : List LoopPlace → β → Stretch} (hm : Puts fin bc lits v L m v' (fun _ => L') fun _ _ => noCode)
    (hf : Puts fin bc lits v' L' (f ()) v'' B next) : Puts fin bc lits v L (m >>= f) v'' B next := by
  refine (hm.seq hf).mono ?_
  rintro _ _ _ _ ⟨_, rfl, hnext⟩
  exact hnext

/-- After something of which the result is known. -/
theorem Puts.knows {v' v'' : Int × Int} {m : Gen α} {f : α → Gen β} {B : β → List Nat}
    {next : List LoopPlace → β → Stretch} (a : α)
    (hm : Puts fin bc lits v L m v' (fun _ => L) fun _ _ => noCode)
    (hres : ∀ s b s', m s = some (b, s') → s.cells = v → b = a)
    (hf : Puts fin bc lits v' L (f a) v'' B next) : Puts fin bc lits v L (m >>= f) v'' B next := by
  intro s b s'' hrun hv hown
  obtain ⟨a', s', hm', hrun⟩ := bind_eq_some hrun
  obtain ⟨hv', hown', hback⟩ := hm s a' s' hm' hv hown
  obtain rfl := hres s a' s' hm' hv
  obtain ⟨hv'', hown'', hback'⟩ := hf s' b s'' hrun hv' hown'
  refine ⟨hv'', hown'', fun hlater => ?_⟩
  obtain ⟨hlater', hplaces', hnext⟩ := hback' hlater
  obtain ⟨hlater'', hplaces, hcode⟩ := hback hlater'
  refine ⟨hlater'', hplaces.trans hplaces', ?_⟩
  rw [hplaces, ← show s'.place bc fin = s.place bc fin from hcode]
  exact hnext

section

variable {c saved : Int} {v'' : Int × Int} {B : β → List Nat} {next : List LoopPlace → β → Stretch}

theorem Puts.save {f : Int → Gen β} (hf : Puts fin bc lits (c, c - 1) L (f saved) v'' B next) :
    Puts fin bc lits (c, saved) L (saveStackTop >>= f) v'' B next := by
  refine .knows saved (puts_stack silent_saveStackTop fun s a s' hrun hv => ?_) (fun s a s' hrun hv => ?_) hf
  · cases hrun
    cases hv
    exact ⟨rfl, rfl⟩
  · cases hrun
    cases hv
    rfl

theorem Puts.restore {old : Int} {f : Unit → Gen β} (hf : Puts fin bc lits (c, old) L (f ()) v'' B next) :
    Puts fin bc lits (c, saved) L (restoreStackTop old >>= f) v'' B next := by
  refine .silent (puts_stack (silent_restoreStackTop old) fun s a s' hrun hv => ?_) hf
  cases hrun
  cases hv
  exact ⟨rfl, rfl⟩

theorem Puts.savedTop {f : Int → Gen β} (hf : Puts fin bc lits (c, saved) L (f saved) v'' B next) :
    Puts fin bc lits (c, saved) L (savedStackTop >>= f) v'' B next := by
  refine .knows saved (puts_stack silent_savedStackTop fun s a s' hrun hv => ?_) (fun s a s' hrun hv => ?_) hf
  · cases hrun
    exact ⟨hv, rfl⟩
  · cases hrun
    cases hv
    rfl

theorem Puts.curTop {f : Int → Gen β} (hf : Puts fin bc lits (c, saved) L (f c) v'' B next) :
    Puts fin bc lits (c, saved) L (curStackNow >>= f) v'' B next := by
  refine .knows c (puts_stack silent_curStackNow fun s a s' hrun hv => ?_) (fun s a s' hrun hv => ?_) hf
  · cases hrun
    exact ⟨hv, rfl⟩
  · cases hrun
    cases hv
    rfl

/-- A label for this place. -/
theorem Puts.capture {f : Fixup → Gen β} {next : Fixup → List LoopPlace → β → Stretch}
    (hfin : Finished fin bc)
    (hf : ∀ top, top.kind = .label → top.next = none → Puts fin bc lits v L (f top) v'' B (next top)) :
    Puts fin bc lits v L (captureLabel >>= f) v'' B fun P b pc pc' =>
      ∃ top, bc.operandValue top = pc ∧ next top P b pc pc' := by
  intro s b s'' hrun hv hown
  obtain ⟨top, s', htop, hrun⟩ := bind_eq_some hrun
  cases htop
  obtain ⟨hv'', hown'', hback⟩ := hf _ rfl rfl s b s'' hrun hv hown
  refine ⟨hv'', hown'', fun hlater => ?_⟩
  obtain ⟨hlater', hplaces, hnext⟩ := hback hlater
  exact ⟨hlater', hplaces, _, hfin.label hown.neat.tidy hlater'.grown rfl, hnext⟩

end

end

/-! ## Labels -/

/-- A new label before a chain, or on its own. -/
theorem Chained.link {H : List Nat} {next : Option Nat} (h : Chained (next.toList ++ H) s) (ht : s.Tidy)
    (hrun : addLinkedLabel next s = some (l, s')) : Chained (l :: H) s' := by
  obtain ⟨hdone, rfl, -, f, hkind, hnext, hfixups⟩ := addLinkedLabel_spec (H := []) hrun ht
  have hext := hdone.grown.next
  have hnew : s'.links s.fixups.length = some next := nextLabel_some.mpr
    ⟨{ f with pc := s.bytes.length }, by rw [hfixups, List.getElem?_concat_length], hkind, hnext⟩
  have hends : ∀ l' ∈ H, ∀ r, On s'.links r l' → On s.links r l' := fun l' hl' r hon =>
    ((h.ended l' (List.mem_append_right _ hl')).on_iff hext).mp hon
  refine ⟨List.forall_mem_cons.mpr ⟨?_, (h.append_right.extends hdone.grown).ended⟩,
    List.pairwise_cons.mpr ⟨fun l' hl' r hr hr' => ?_, (h.append_right.extends hdone.grown).apart⟩⟩
  · cases next with
    | none => exact .last hnew id
    | some n => exact .link hnew id ((h.ended n List.mem_cons_self).extends hext)
  · have hold := hends l' hl' r hr'
    cases hr with
    | here _ =>
        have hbase := On.base hold
        rw [GenState.links, nextLabel, List.getElem?_eq_none (Nat.le_refl _)] at hbase
        cases hbase
    | link hl _ hon =>
        rw [hnew] at hl
        cases hl
        have hn := h.ended _ (List.mem_append_left H (Option.mem_toList.mpr rfl))
        exact (List.pairwise_append.mp h.apart).2.2 _ (Option.mem_toList.mpr rfl) l' hl' r
          ((hn.on_iff hext).mp hon) hold

theorem Settled.link {H : List Nat} {next : Option Nat} (hs : Settled fin bc (l :: H) s')
    (h : Chained (next.toList ++ H) s) (hdown : ∀ l n, s'.links l = some (some n) → n < l) (ht : s.Tidy)
    (hrun : addLinkedLabel next s = some (l, s')) :
    Settled fin bc (next.toList ++ H) s ∧ ∀ n ∈ next, bc.goal fin n = bc.goal fin l := by
  obtain ⟨hdone, rfl, -, f, hkind, hnext, hfixups⟩ := addLinkedLabel_spec (H := []) hrun ht
  have hext := hdone.grown.next
  have hnew : s'.links s.fixups.length = some next := nextLabel_some.mpr
    ⟨{ f with pc := s.bytes.length }, by rw [hfixups, List.getElem?_concat_length], hkind, hnext⟩
  have hon : ∀ n ∈ next, ∀ r, On s.links r n → On s'.links r s.fixups.length := by
    rintro n rfl r hr
    exact .link hnew (hdown _ _ hnew) (hr.extends hext)
  have hgoal : ∀ n ∈ next, ∀ r, On s.links r n → bc.goal fin r = bc.goal fin s.fixups.length :=
    fun n hn r hr => hs.goals _ List.mem_cons_self r (hon n hn r hr)
  have hself : ∀ n ∈ next, On s.links n n := fun n hn => by
    cases h.ended n (List.mem_append_left H (Option.mem_toList.mpr hn)) with
    | last hl _ => exact .here (Option.isSome_iff_exists.mpr ⟨_, hl⟩)
    | link hl _ _ => exact .here (Option.isSome_iff_exists.mpr ⟨_, hl⟩)
  refine ⟨⟨fun r g hr hoff => hs.final r g ?_ fun l' hl' hon' => ?_, fun l' hl' r hr => ?_⟩,
    fun n hn => hgoal n hn n (hself n hn)⟩
  · rw [hfixups, List.getElem?_append_left (List.getElem?_eq_some_iff.mp hr).1]
    exact hr
  · rcases List.mem_cons.mp hl' with rfl | hl'
    · cases hon' with
      | here _ => exact absurd (List.getElem?_eq_some_iff.mp hr).1 (Nat.lt_irrefl _)
      | @link _ n hl _ hon' =>
          rw [hnew] at hl
          cases hl
          have hmem := List.mem_append_left H (Option.mem_toList.mpr (rfl : some n = some n))
          exact hoff n hmem (((h.ended n hmem).on_iff hext).mp hon')
    · have hmem := List.mem_append_right next.toList hl'
      exact hoff l' hmem (((h.ended l' hmem).on_iff hext).mp hon')
  · rcases List.mem_append.mp hl' with hl' | hl'
    · have hn := Option.mem_toList.mp hl'
      exact (hgoal l' hn r hr).trans (hgoal l' hn l' (hself l' hn)).symm
    · exact hs.goals l' (List.mem_cons_of_mem _ hl') r (hr.extends hext)

/-- The operand of a label that has just been made. -/
theorem Finished.waits (hfin : Finished fin bc) {next : Option Nat}
    (hrun : addLinkedLabel next s = some (l, s')) (hg : Grown s' fin) :
    labelAt bc (bc.goal fin l) (s.place bc fin) (s'.place bc fin) := by
  obtain ⟨f, hf, -, hread, hplace⟩ := hfin.linkedLabel hrun hg
  refine ⟨?_, hplace⟩
  rw [Bytecodes.goal, hf]
  exact hread

theorem addLinkedLabel_neat {next : Option Nat} (hneat : s.Neat) (hnext : ∀ n ∈ next, n < s.fixups.length)
    (hrun : addLinkedLabel next s = some (l, s')) : s'.Neat where
  tidy := (addLinkedLabel_spec (H := []) hrun hneat.tidy).1.tidy
  down l' n hl := by
    obtain ⟨-, -, -, f, hkind, hf, hfixups⟩ := addLinkedLabel_spec (H := []) hrun hneat.tidy
    obtain ⟨g, hg, hkind', hn⟩ := nextLabel_some.mp hl
    rw [hfixups, List.getElem?_append] at hg
    split at hg
    next => exact hneat.down l' n (nextLabel_some.mpr ⟨g, hg, hkind', hn⟩)
    next hge =>
      rw [List.mem_singleton.mp (List.mem_of_getElem? hg), hf] at hn
      exact Nat.lt_of_lt_of_le (hnext n hn) (Nat.le_of_not_lt hge)
  tops := by
    cases hrun
    exact hneat.tops
  exits := by
    cases hrun
    exact hneat.exits
  plain := by
    cases hrun
    exact hneat.plain

theorem Chained.lt {H : List Nat} (h : Chained H s) (hl : l ∈ H) : l < s.fixups.length := by
  have hsome : (s.links l).isSome := by
    cases h.ended l hl with
    | last hl _ | link hl _ _ => exact Option.isSome_iff_exists.mpr ⟨_, hl⟩
  by_contra hge
  rw [GenState.links, nextLabel, List.getElem?_eq_none (Nat.le_of_not_lt hge)] at hsome
  cases hsome

section

variable {v : Int × Int}

theorem puts_addLinkedLabel (hfin : Finished fin bc) (next : Option Nat) :
    Puts fin bc lits v (next.toList ++ L) (addLinkedLabel next) v (fun l => l :: L) fun _ l pc pc' =>
      labelAt bc (bc.goal fin l) pc pc' ∧ ∀ n ∈ next, bc.goal fin n = bc.goal fin l := by
  intro s l s' hrun hv hown
  have hchained := hown.chained
  rw [heads_append] at hchained
  have hneat := addLinkedLabel_neat hown.neat
    (fun n hn => hchained.lt (List.mem_append_left _ (Option.mem_toList.mpr hn))) hrun
  have hspec := addLinkedLabel_spec (H := []) hrun hown.neat.tidy
  have hheads : s'.heads L = s.heads L := by rw [GenState.heads, GenState.heads, hspec.2.2.1]
  have hlits : s'.gstate = s.gstate := by
    cases hrun
    rfl
  refine ⟨?_, ⟨hneat, ?_⟩, fun hlater => ?_⟩
  · cases hrun
    exact hv
  · rw [heads_cons, hheads]
    exact hchained.link hown.neat.tidy hrun
  · have hsettled := hlater.settled
    rw [heads_cons, hheads] at hsettled
    obtain ⟨hsettled', hgoals⟩ := hsettled.link hchained hneat.down hown.neat.tidy hrun
    refine ⟨⟨hspec.1.grown.trans hlater.grown, hlits ▸ hlater.literals, ?_⟩, ?_,
      hfin.waits hrun hlater.grown, hgoals⟩
    · rw [heads_append]
      exact hsettled'
    · rw [Bytecodes.places, Bytecodes.places, hspec.2.2.1]

theorem puts_addLabel (hfin : Finished fin bc) :
    Puts fin bc lits v L addLabel v (fun l => l :: L) fun _ l => labelAt bc (bc.goal fin l) :=
  (puts_addLinkedLabel hfin none).mono fun _ _ _ _ h => h.1

/-- All labels of a chain that is defined lead here. -/
theorem defined_goal (hfin : Finished fin bc) {H : List Nat} (hneat : s.Neat) (hg : Grown s fin)
    (hchained : Chained (l :: H) s)
    (hs : Settled fin bc H { s with fixups := defineChain s s.fixups.length (some l) s.fixups })
    (hon : On s.links r l) : bc.goal fin r = s.place bc fin := by
  obtain ⟨x, hx⟩ := Option.isSome_iff_exists.mp (On.base hon)
  obtain ⟨f, hf, hkind, -⟩ := nextLabel_some.mp hx
  have hget := getElem?_defineChain_on s hon (hchained.lt List.mem_cons_self) hf
  have hlinks : nextLabel (defineChain s s.fixups.length (some l) s.fixups) = nextLabel s.fixups :=
    nextLabel_congr (map_shape_defineChain s)
  have hfinal := hs.final r _ hget fun l' hl' hon' => by
    rw [GenState.links, hlinks] at hon'
    exact (List.pairwise_cons.mp hchained.apart).1 l' hl' r hon hon'
  rw [Bytecodes.goal, hfinal]
  exact hfin.label hneat.tidy hg hkind

theorem puts_defineLabel (hfin : Finished fin bc) (label : Option Nat) :
    Puts fin bc lits v (label.toList ++ L) (defineLabel label) v (fun _ => L) fun _ _ pc pc' =>
      (∀ n ∈ label, bc.goal fin n = pc) ∧ pc' = pc := by
  intro s _ s' hrun hv hown
  have hchained := hown.chained
  rw [heads_append] at hchained
  have hdone := does_defineLabel (H := label.toList) (fun n hn => Option.mem_toList.mpr hn) _ _ _ hrun
    hown.neat.tidy
  cases hrun
  have hlinks : nextLabel (defineChain s s.fixups.length label s.fixups) = nextLabel s.fixups :=
    nextLabel_congr (map_shape_defineChain s)
  refine ⟨hv, ⟨⟨hdone.tidy, ?_, hown.neat.tops, hown.neat.exits, hown.neat.plain⟩, ⟨?_, ?_⟩⟩,
    fun hlater => ?_⟩
  · rw [GenState.links, hlinks]
    exact hown.neat.down
  · rw [GenState.links, hlinks]
    exact hchained.append_right.ended
  · rw [GenState.links, hlinks]
    exact hchained.append_right.apart
  · have hgrown := hdone.grown.trans hlater.grown
    have hgoal : ∀ n ∈ label, ∀ r, On s.links r n → bc.goal fin r = s.place bc fin := by
      rintro n rfl r hon
      exact defined_goal hfin hown.neat hgrown hchained hlater.settled hon
    have hself : ∀ n ∈ label, bc.goal fin n = s.place bc fin := fun n hn => by
      refine hgoal n hn n ?_
      cases hchained.ended n (List.mem_append_left _ (Option.mem_toList.mpr hn)) with
      | last hl _ | link hl _ _ => exact .here (Option.isSome_iff_exists.mpr ⟨_, hl⟩)
    refine ⟨⟨hgrown, hlater.literals, ?_⟩, rfl, hself, rfl⟩
    rw [heads_append]
    refine ⟨fun r f hr hoff => ?_, fun n hn r hon => ?_⟩
    · refine hlater.settled.final r f ?_ fun l' hl' hon => ?_
      · show (defineChain s s.fixups.length label s.fixups)[r]? = some f
        rw [getElem?_defineChain_off s (R := (· = r)) (fun b hb => ?_) rfl]
        · exact hr
        · have hmem := List.mem_append_left (s.heads L) (Option.mem_toList.mpr hb)
          exact (hchained.ended b hmem).of_not_on hown.neat.down fun _ heq => heq ▸ hoff b hmem
      · rw [GenState.links, hlinks] at hon
        exact hoff l' (List.mem_append_right _ hl') hon
    · rcases List.mem_append.mp hn with hn | hn
      · have hn' := Option.mem_toList.mp hn
        exact (hgoal n hn' r hon).trans (hself n hn').symm
      · refine hlater.settled.goals n hn r ?_
        rw [GenState.links, hlinks]
        exact hon

/-- The label that has just been made is defined. -/
theorem puts_define (hfin : Finished fin bc) :
    Puts fin bc lits v (l :: L) (defineLabel (some l)) v (fun _ => L) fun _ _ => here (bc.goal fin l) :=
  (puts_defineLabel hfin (some l)).mono fun _ _ _ _ h => ⟨(h.1 l rfl).symm, h.2⟩

end

/-! ## Loops -/

/-- The heads of a state with one loop more. -/
theorem heads_loop {loop : Loop} {rest : List Loop} (hloops : s.loops = loop :: rest)
    (hlabel : loop.bottomLabel = some l) :
    (s.heads L).Perm (({ s with loops := rest } : GenState).heads (l :: L)) := by
  have hheads : s.heads L = L ++ l :: rest.filterMap Loop.bottomLabel := by
    rw [GenState.heads, hloops, List.filterMap_cons_some hlabel]
  rw [hheads]
  exact List.perm_middle

section

variable {v v' v'' : Int × Int}

/-- A loop is entered with the label of its end, and left with a label of the same chain. -/
theorem puts_loop {id topStack bottomStack : Int} {top : Fixup} {body : Gen Unit} {k : Option Nat → Gen α}
    {A : α → List Nat} {code : List LoopPlace → Stretch} {next : Nat → List LoopPlace → α → Stretch}
    (hkind : top.kind = .label) (hlast : top.next = none)
    (hbody : Puts fin bc lits v L body v' (fun _ => L) fun P _ => code P)
    (hk : ∀ n, Puts fin bc lits v' (n :: L) (k (some n)) v'' A (next n)) :
    Puts fin bc lits v (l :: L) (do
      enterLoop id top topStack (some l) bottomStack
      body
      let b ← exitLoop
      k b) v'' A fun P a pc pc' => ∃ p,
        code (⟨id, bc.operandValue top, topStack, bc.goal fin l, bottomStack⟩ :: P) pc p ∧
          ∃ n, bc.goal fin n = bc.goal fin l ∧ next n P a p pc' := by
  intro s a s' hrun hv hown
  obtain ⟨_, s1, henter, hrun⟩ := bind_eq_some hrun
  cases henter
  obtain ⟨_, s2, hrunBody, hrun⟩ := bind_eq_some hrun
  obtain ⟨b, s3, hexit, hrun⟩ := bind_eq_some hrun
  have hneat := hown.neat
  have hown1 : Owned L { s with loops := ⟨id, top, topStack, some l, bottomStack⟩ :: s.loops } := by
    refine ⟨⟨hneat.tidy.enter _ hkind, hneat.down, List.forall_mem_cons.mpr ⟨hlast, hneat.tops⟩,
      List.forall_mem_cons.mpr ⟨rfl, hneat.exits⟩, hneat.plain⟩, ?_⟩
    have hperm := heads_loop (L := L)
      (s := { s with loops := ⟨id, top, topStack, some l, bottomStack⟩ :: s.loops }) rfl rfl
    have hchained := hown.chained.perm hperm.symm
    exact ⟨hchained.ended, hchained.apart⟩
  obtain ⟨hv', hown2, hback⟩ := hbody _ _ _ hrunBody hv hown1
  rw [exitLoop] at hexit
  cases hloops : s2.loops with
  | nil =>
      rw [hloops] at hexit
      cases hexit
  | cons loop rest =>
      rw [hloops] at hexit
      cases hexit
      have hmem : loop ∈ s2.loops := hloops ▸ List.mem_cons_self
      obtain ⟨n, hn⟩ := Option.isSome_iff_exists.mp (hown2.neat.exits loop hmem)
      have hsub : ∀ loop' ∈ rest, loop' ∈ s2.loops := fun loop' hmem' =>
        hloops ▸ List.mem_cons_of_mem _ hmem'
      have hperm := heads_loop (L := L) hloops hn
      have hown3 : Owned (n :: L) { s2 with loops := rest } := by
        have hchained := hown2.chained.perm hperm
        have ht := hown2.neat.tidy
        exact ⟨⟨⟨ht.sorted, ht.placed, ht.counted, ht.stackCount, fun loop' hmem' =>
          ht.tops loop' (hsub loop' hmem')⟩, hown2.neat.down, fun loop' hmem' =>
          hown2.neat.tops loop' (hsub loop' hmem'), fun loop' hmem' =>
          hown2.neat.exits loop' (hsub loop' hmem'), hown2.neat.plain⟩, ⟨hchained.ended, hchained.apart⟩⟩
      rw [hn] at hrun
      obtain ⟨hv'', hown', hback'⟩ := hk n _ a s' hrun hv' hown3
      refine ⟨hv'', hown', fun hlater => ?_⟩
      obtain ⟨hlater3, hplaces3, hnext⟩ := hback' hlater
      have hlater2 : Later fin bc lits L s2 :=
        ⟨⟨hlater3.grown.bytes, hlater3.grown.fixups, hlater3.grown.later⟩, hlater3.literals,
          Settled.perm ⟨hlater3.settled.final, hlater3.settled.goals⟩ hperm.symm⟩
      obtain ⟨hlater1, hplaces, hcode⟩ := hback hlater2
      have hcons : bc.places fin s2 = bc.loopPlace fin loop :: bc.places fin { s2 with loops := rest } := by
        rw [Bytecodes.places, hloops]
        rfl
      rw [hcons] at hplaces
      obtain ⟨hloop, hplaces⟩ := List.cons.inj hplaces
      have hgoal : bc.goal fin l = bc.goal fin n := by
        have := congrArg LoopPlace.exit hloop
        rw [Bytecodes.loopPlace, Bytecodes.loopPlace, hn] at this
        exact this
      have hplaces' : bc.places fin s = bc.places fin { s2 with loops := rest } := hplaces
      refine ⟨⟨⟨hlater1.grown.bytes, hlater1.grown.fixups, hlater1.grown.later⟩, hlater1.literals, ?_⟩,
        hplaces'.trans hplaces3, s2.place bc fin, hcode, n, hgoal.symm, ?_⟩
      · have hperm1 := heads_loop (L := L)
          (s := { s with loops := ⟨id, top, topStack, some l, bottomStack⟩ :: s.loops }) rfl rfl
        have hsettled := hlater1.settled.perm hperm1
        exact ⟨hsettled.final, hsettled.goals⟩
      · rw [hplaces']
        exact hnext

end

end Waverous
