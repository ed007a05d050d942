import Waverous.CodeInsns
import Waverous.CodeParts
import Waverous.CodeDepth

/-! # One format of instructions — `code_gen.c`, `disassemble.c`, `execute.c`

    When a vector is finished, the items of the generator come to stand one behind the other, with
    the operands at their sizes.  So the disassembler takes the instructions that the generator
    has emitted, the interpreter takes the same ones, and the labels are offsets of instructions:
    but `num_stacks` is never incremented, so that `bc.size` and the labels leave out the
    operands that are depths of the stack, if these do not have one byte only. -/

namespace Waverous

open Views

variable {bc : Bytecodes} {st : GenState}

/-! ## Sizes -/

/-- `bc.size`. -/
def codeSize (st : GenState) : Nat :=
  let bc := vectorSizes st
  st.bytes.length + (bc.numbytesLiteral - 1) * st.numLiterals + (bc.numbytesFork - 1) * st.numForks +
    (bc.numbytesVarName - 1) * st.numVarRefs + (bc.numbytesLabel - 1) * st.numLabels

/-- The bytes of an item in the vector. -/
def Bytecodes.itemWidth (bc : Bytecodes) : Item → Nat
  | .byte _ => 1
  | .operand kind => bc.operandSize kind

/-- The bytes of items in the vector. -/
def Bytecodes.span (bc : Bytecodes) (items : List Item) : Nat := (items.map bc.itemWidth).sum

@[simp] theorem span_nil : bc.span [] = 0 := rfl

@[simp] theorem span_cons (item : Item) (items : List Item) :
    bc.span (item :: items) = bc.itemWidth item + bc.span items := List.sum_cons

theorem span_append (items items' : List Item) :
    bc.span (items ++ items') = bc.span items + bc.span items' := by
  rw [Bytecodes.span, List.map_append, List.sum_append]
  rfl

theorem Bytecodes.Sized.pos (hsized : bc.Sized) (kind : FixupKind) : 0 < bc.operandSize kind := by
  rcases hsized kind with h | h | h
  · omega
  · omega
  · omega

/-- The bytes that operands have besides their placeholders, kind by kind. -/
theorem span_counts (hsized : bc.Sized) (items : List Item) : bc.span items = items.length +
    items.count (.operand .literal) * (bc.numbytesLiteral - 1) +
    items.count (.operand .fork) * (bc.numbytesFork - 1) +
    items.count (.operand .varRef) * (bc.numbytesVarName - 1) +
    items.count (.operand .label) * (bc.numbytesLabel - 1) +
    items.count (.operand .stack) * (bc.numbytesStack - 1) := by
  induction items with
  | nil => simp
  | cons item items ih =>
      rw [span_cons, ih]
      cases item with
      | byte b =>
          simp only [Bytecodes.itemWidth, List.length_cons, List.count_cons]
          simp
          omega
      | operand kind =>
          have hpos := hsized.pos kind
          cases kind <;> simp only [Bytecodes.itemWidth, Bytecodes.operandSize] at hpos ⊢ <;>
            simp [Nat.add_mul] <;> omega

/-! ## Where items stand -/

/-- What the item `i` of a state is. -/
theorem item_cases {i : Nat} {item : Item} (h : st.items[i]? = some item) :
    ∃ b, st.bytes[i]? = some b ∧ ((∃ f ∈ st.fixups, f.pc = i ∧ item = .operand f.kind) ∨
      (∀ f ∈ st.fixups, f.pc ≠ i) ∧ item = .byte b) := by
  rw [GenState.items, List.getElem?_mapIdx] at h
  obtain ⟨b, hb, rfl⟩ := Option.map_eq_some_iff.mp h
  refine ⟨b, hb, ?_⟩
  cases hfind : st.fixups.find? fun f => decide (f.pc = i) with
  | none =>
      have hno : ∀ f ∈ st.fixups, f.pc ≠ i := fun f hf => by simpa using List.find?_eq_none.mp hfind f hf
      exact .inr ⟨hno, itemAt_none b hno⟩
  | some f =>
      refine .inl ⟨f, List.mem_of_find?_eq_some hfind, by simpa using List.find?_some hfind, ?_⟩
      rw [itemAt, hfind]
      rfl

/-- The place of a byte is behind the items before it. -/
theorem place_span (ht : st.Tidy) (hsized : bc.Sized) {i : Nat} (hi : i ≤ st.items.length) :
    bc.place st.fixups i = bc.span (st.items.take i) := by
  induction i with
  | zero =>
      rw [Bytecodes.place, filter_none fun f _ => by simp]
      rfl
  | succ i ih =>
      have hget := List.getElem?_eq_getElem (Nat.lt_of_succ_le hi)
      have htake : st.items.take (i + 1) = st.items.take i ++ [st.items[i]] := List.take_succ_eq_append_getElem _
      rw [htake, span_append, ← ih (by omega), span_cons, span_nil]
      obtain ⟨b, -, ⟨f, hf, hpc, hitem⟩ | ⟨hno, hitem⟩⟩ := item_cases hget
      · have hpos := hsized.pos f.kind
        rw [place_succ_at ht.sorted hf hpc, hitem, Bytecodes.extra, Bytecodes.itemWidth]
        omega
      · rw [place_succ_other hno, hitem, Bytecodes.itemWidth]

/-- The items from the byte `i` of the generator on stand in the vector from `pc` on. -/
def Stands (st : GenState) (bc : Bytecodes) : Nat → Nat → List Item → Prop
  | _, _, [] => True
  | i, pc, .byte b :: items => bc.vector[pc]? = some b ∧ Stands st bc (i + 1) (pc + 1) items
  | i, pc, .operand kind :: items =>
      (∃ f ∈ st.fixups, f.pc = i ∧ f.kind = kind ∧
        readBytes bc.vector pc (bc.operandSize kind) = some (bc.operandValue f)) ∧
      Stands st bc (i + 1) (pc + bc.operandSize kind) items

/-- A vector has been made of a state, with operands that fit. -/
structure Emitted (st : GenState) (bc : Bytecodes) : Prop where
  tidy : st.Tidy
  finish : finishVector st = some bc
  fits : ∀ f ∈ st.fixups, bc.operandValue f < 256 ^ bc.operandSize f.kind

theorem Emitted.eq (h : Emitted st bc) : ∃ vector, relocate bc 0 st.bytes st.fixups = some vector ∧
    bc = { vectorSizes st with vector := vector } := by
  have hfinish := h.finish
  unfold finishVector at hfinish
  split at hfinish
  · exact nomatch hfinish
  · split at hfinish
    · exact nomatch hfinish
    · obtain ⟨vector, hvector, hfinish⟩ := Option.bind_eq_some_iff.mp hfinish
      cases hfinish
      exact ⟨vector, by rw [relocate_vector]; exact hvector, rfl⟩

theorem Emitted.relocate (h : Emitted st bc) :
    relocate bc 0 st.bytes st.fixups = some bc.vector := by
  obtain ⟨vector, hvector, heq⟩ := h.eq
  rw [hvector, heq]

theorem Emitted.sized (h : Emitted st bc) : bc.Sized := by
  obtain ⟨vector, -, heq⟩ := h.eq
  intro kind
  have hkind := vectorSizes_operandSize st kind
  rw [heq]
  cases kind <;> exact hkind

theorem Emitted.stands (h : Emitted st bc) : ∀ (items : List Item) (i : Nat),
    st.items.drop i = items → Stands st bc i (bc.span (st.items.take i)) items
  | [], _, _ => trivial
  | item :: items, i, hdrop => by
      have hlt : i < st.items.length := by
        by_contra hge
        rw [List.drop_eq_nil_of_le (Nat.le_of_not_lt hge)] at hdrop
        exact nomatch hdrop
      rw [List.drop_eq_getElem_cons hlt] at hdrop
      obtain ⟨hitem, hrest⟩ := List.cons.inj hdrop
      have hget : st.items[i]? = some item := by rw [List.getElem?_eq_getElem hlt, hitem]
      have hnext := h.stands items (i + 1) hrest
      have htake : st.items.take (i + 1) = st.items.take i ++ [item] := by
        rw [← hitem]
        exact List.take_succ_eq_append_getElem hlt
      rw [htake, span_append, span_cons, span_nil, Nat.add_zero] at hnext
      have hplace := place_span h.tidy h.sized (Nat.le_of_lt hlt)
      have hbytes : i < st.bytes.length := by rwa [items_length] at hlt
      have hreloc := relocate_drop h.tidy.sorted h.relocate (Nat.le_of_lt hbytes)
      rw [List.drop_eq_getElem_cons hbytes, hplace] at hreloc
      obtain ⟨b, hb, ⟨f, hf, hpc, rfl⟩ | ⟨hno, rfl⟩⟩ := item_cases hget
      · refine ⟨⟨f, hf, hpc, rfl, ?_⟩, hnext⟩
        obtain ⟨operand, rest, hoperand, -, hvector⟩ := relocate_at h.tidy.sorted hf hpc hreloc
        exact readBytes_operand hoperand hvector (h.fits f hf)
      · refine ⟨?_, hnext⟩
        obtain ⟨rest, -, hvector⟩ := relocate_other h.tidy.sorted hno hreloc
        rw [← List.head?_drop, hvector, ← hb, List.getElem?_eq_getElem hbytes]
        rfl

/-- Each byte has its place in the vector. -/
theorem Emitted.place_le (h : Emitted st bc) {i : Nat} (hi : i ≤ st.bytes.length) :
    bc.place st.fixups i ≤ bc.vector.length := by
  induction i with
  | zero =>
      rw [Bytecodes.place, filter_none fun f _ => by simp]
      exact Nat.zero_le _
  | succ i ih =>
      have hle := ih (by omega)
      have hreloc := relocate_drop h.tidy.sorted h.relocate (Nat.le_of_succ_le hi)
      rw [List.drop_eq_getElem_cons (by omega)] at hreloc
      by_cases hat : ∃ f ∈ st.fixups, f.pc = i
      · obtain ⟨f, hf, hpc⟩ := hat
        obtain ⟨operand, rest, hoperand, -, hvector⟩ := relocate_at h.tidy.sorted hf hpc hreloc
        obtain ⟨hlen, hpos⟩ := operandBytes_length hoperand
        have hdrop := congrArg List.length hvector
        rw [List.length_drop, List.length_append] at hdrop
        rw [place_succ_at h.tidy.sorted hf hpc, Bytecodes.extra]
        omega
      · have hno : ∀ f ∈ st.fixups, f.pc ≠ i := fun f hf hpc => hat ⟨f, hf, hpc⟩
        obtain ⟨rest, -, hvector⟩ := relocate_other h.tidy.sorted hno hreloc
        have hdrop := congrArg List.length hvector
        rw [List.length_drop, List.length_cons] at hdrop
        rw [place_succ_other hno]
        omega

theorem Emitted.length (h : Emitted st bc) : bc.vector.length = bc.span st.items := by
  have hplace := place_span h.tidy h.sized (Nat.le_refl st.items.length)
  rw [List.take_length, items_length] at hplace
  have hle := h.place_le (Nat.le_refl _)
  have hreloc := relocate_drop h.tidy.sorted h.relocate (Nat.le_refl _)
  rw [List.drop_length, Waverous.relocate] at hreloc
  have hdrop := congrArg List.length (Option.some.inj hreloc)
  rw [List.length_drop, List.length_nil] at hdrop
  omega

/-- What `bc.size` leaves out. -/
theorem Emitted.size (h : Emitted st bc) {p : Phase} {H : List Nat} {T : List Fixup} {q : Prop}
    (hs : Sound p H T q st) : bc.vector.length =
      codeSize st + countKind st.fixups .stack * (bc.numbytesStack - 1) := by
  obtain ⟨vector, -, heq⟩ := h.eq
  have hcount : ∀ kind, kind ≠ .stack → st.items.count (.operand kind) = st.num kind := by
    intro kind hkind
    rw [hs.num, operandsBefore_counted _ _ hkind, List.take_length]
  rw [h.length, span_counts h.sized, hcount .literal nofun, hcount .fork nofun, hcount .varRef nofun,
    hcount .label nofun, hs.counted, items_length, heq, codeSize]
  simp only [GenState.num]
  simp only [Nat.mul_comm]

/-! ## Instructions -/

theorem phaseFrom_append (p : Phase) (items items' : List Item) :
    phaseFrom p (items ++ items') = (phaseFrom p items).bind fun p' => phaseFrom p' items' := by
  rw [phaseFrom, List.foldlM_append]
  rfl

theorem phaseFrom_step {p p' p'' : Phase} {item : Item} {items : List Item}
    (h : phaseFrom p (item :: items) = some p'') (hstep : p.step item = some p') :
    phaseFrom p' items = some p'' := by
  have hbind : (p.step item).bind (fun p' => phaseFrom p' items) = some p'' := h
  rwa [hstep] at hbind

theorem addOperands_some {slot : Slot} {slots : List Slot} {pc a next : Nat} {as : List Nat}
    (hsized : bc.Sized) (ha : readBytes bc.vector pc (bc.width slot) = some a)
    (has : addOperands bc slots (pc + bc.width slot) = some (as, next)) :
    addOperands bc (slot :: slots) pc = some (a :: as, next) := by
  have hbytes : bc.addBytes (bc.width slot) pc = some (a, pc + bc.width slot) := by
    rw [addBytes_eq (hsized.width slot), Bytecodes.readBytes, ha]
    rfl
  exact (Scan.bind_eq hbytes _).trans (Scan.bind_eq has _)

/-- What is read for some slots, from the item `i` on. -/
structure SlotsRead (st : GenState) (bc : Bytecodes) (slots : List Slot) (i pc : Nat)
    (taken rest : List Item) (args : List Nat) : Prop where
  length : taken.length = slots.length
  behind : phaseFrom .start rest = some .start
  stands : Stands st bc (i + taken.length) (pc + bc.span taken) rest
  read : addOperands bc slots pc = some (args, pc + bc.span taken)
  phase : ∀ k ≤ slots.length, phaseFrom (.slots slots) (taken.take k) = some (.slots (slots.drop k))
  labels : ∀ k, slots[k]? = some (.operand .label) → ∃ f ∈ st.fixups, f.kind = .label ∧
    f.pc = i + k ∧ args[k]? = some (bc.operandValue f)

theorem SlotsRead.cons {slot : Slot} {slots : List Slot} {i pc a : Nat} {item : Item}
    {taken rest : List Item} {args : List Nat} (hsized : bc.Sized)
    (h : SlotsRead st bc slots (i + 1) (pc + bc.width slot) taken rest args)
    (hwidth : bc.itemWidth item = bc.width slot)
    (hstep : Phase.step (.slots (slot :: slots)) item = some (.slots slots))
    (hread : readBytes bc.vector pc (bc.width slot) = some a)
    (hlabel : slot = .operand .label → ∃ f ∈ st.fixups, f.kind = .label ∧ f.pc = i ∧
      a = bc.operandValue f) : SlotsRead st bc (slot :: slots) i pc (item :: taken) rest (a :: args) where
  length := congrArg (· + 1) h.length
  behind := h.behind
  stands := by
    have hi : i + (item :: taken).length = i + 1 + taken.length := by
      rw [List.length_cons]
      omega
    have hpc : pc + bc.span (item :: taken) = pc + bc.width slot + bc.span taken := by
      rw [span_cons, hwidth]
      omega
    rw [hi, hpc]
    exact h.stands
  read := by
    rw [span_cons, hwidth, ← Nat.add_assoc]
    exact addOperands_some hsized hread h.read
  phase k hk := by
    cases k with
    | zero => rfl
    | succ k =>
        show (Phase.step _ item).bind _ = _
        rw [hstep]
        exact h.phase k (Nat.le_of_succ_le_succ hk)
  labels k hk := by
    cases k with
    | zero =>
        obtain ⟨f, hf, hkind, hpc, rfl⟩ := hlabel (Option.some.inj hk)
        exact ⟨f, hf, hkind, hpc, rfl⟩
    | succ k =>
        obtain ⟨f, hf, hkind, hpc, harg⟩ := h.labels k hk
        exact ⟨f, hf, hkind, by omega, harg⟩

theorem read_slots (hsized : bc.Sized) : ∀ (slots : List Slot) {i pc : Nat} {items : List Item},
    phaseFrom (.slots slots) items = some .start → Stands st bc i pc items →
    ∃ taken rest args, items = taken ++ rest ∧ SlotsRead st bc slots i pc taken rest args
  | [], i, pc, items, hphase, hstands =>
      ⟨[], items, [], rfl, rfl, hphase, hstands, rfl, fun k hk => by
        obtain rfl := Nat.le_zero.mp hk
        rfl, fun k hk => (by cases hk)⟩
  | slot :: slots, i, pc, [], hphase, _ => by cases hphase
  | .byte :: slots, i, pc, .byte b :: items, hphase, ⟨hb, hstands⟩ => by
      obtain ⟨taken, rest, args, rfl, hread⟩ := read_slots hsized slots hphase hstands
      refine ⟨.byte b :: taken, rest, b.toNat :: args, rfl, hread.cons hsized rfl rfl ?_ fun h => by cases h⟩
      show (bc.vector[pc]?).bind _ = _
      rw [hb]
      rfl
  | .operand kind :: slots, i, pc, .operand kind' :: items, hphase, ⟨⟨f, hf, hpc, hkind, hvalue⟩, hstands⟩ => by
      have hphase' : (Phase.step (.slots (.operand kind :: slots)) (.operand kind')).bind
        (fun p => phaseFrom p items) = some .start := hphase
      rw [Phase.step] at hphase'
      split at hphase'
      next heq =>
        subst heq
        obtain ⟨taken, rest, args, rfl, hread⟩ := read_slots hsized slots hphase' hstands
        refine ⟨.operand kind :: taken, rest, bc.operandValue f :: args, rfl,
          hread.cons hsized rfl step_operand hvalue fun hlabel => ?_⟩
        cases hlabel
        exact ⟨f, hf, hkind, hpc, rfl⟩
      next => cases hphase'
  | .byte :: slots, i, pc, .operand kind :: items, hphase, _ => by cases hphase
  | .operand kind :: slots, i, pc, .byte b :: items, hphase, _ => by cases hphase

/-- What the operands of an instruction are. -/
def Insn.slots (insn : Insn) : List Slot :=
  match insn.eop with
  | none => opcodeSlots insn.op
  | some eop =>
      if eop = ExtendedOpcode.scatter.byte then
        .byte :: .byte :: .byte :: (targetSlots (insn.args.headD 0) ++ [.operand .label])
      else extendedSlots eop

/-- A label among the operands of an instruction.  Before the last operand, where there are only
    those of the targets of a scatter, 0 and 1 are no labels. -/
def Insn.HasLabel (insn : Insn) (lab : Nat) : Prop :=
  ∃ k, insn.slots[k]? = some (.operand .label) ∧ insn.args[k]? = some lab ∧
    (lab ≤ 1 → k + 1 = insn.slots.length)

/-- An instruction at the item `i`, in the vector at `pc`, and what is behind it. -/
structure InsnAt (st : GenState) (bc : Bytecodes) (i pc : Nat) (insn : Insn)
    (taken rest : List Item) : Prop where
  head : taken.head? = some (.byte insn.op)
  last : phaseFrom .start taken = some .start
  stands : Stands st bc (i + taken.length) (pc + bc.span taken) rest
  isInsn : IsInsn bc pc insn (pc + bc.span taken)
  known : ∀ eop, insn.eop = some eop → eop ∈ extendedOps
  within : ∀ k, 0 < k → k < taken.length → phaseFrom .start (taken.take k) ≠ some .start
  labels : ∀ lab, insn.HasLabel lab → ∃ f ∈ st.fixups, ∃ k < taken.length, 0 < k ∧
    f.kind = .label ∧ f.pc = i + k ∧ lab = bc.operandValue f ∧
    (lab ≤ 1 → phaseFrom .start (taken.take k) = some (.slots [.operand .label]))

/-- The phases within an instruction: those of its opcode, and those of its operands. -/
theorem SlotsRead.within {slots : List Slot} {i pc : Nat} {opcode taken rest : List Item}
    {args : List Nat} (h : SlotsRead st bc slots i pc taken rest args)
    (hopcode : phaseFrom .start opcode = some (.slots slots)) {k : Nat} (hk : k ≤ slots.length) :
    phaseFrom .start ((opcode ++ taken).take (opcode.length + k)) = some (.slots (slots.drop k)) := by
  rw [List.take_length_add_append, phaseFrom_append, hopcode]
  exact h.phase k hk

/-- An opcode, perhaps with operands that are bytes, and the operands that are behind it. -/
theorem SlotsRead.insnAt {slots : List Slot} {i pc : Nat} {opcode taken rest : List Item}
    {args : List Nat} {insn : Insn} (bytes : List Slot) (values : List Nat)
    (h : SlotsRead st bc slots (i + opcode.length) (pc + opcode.length) taken rest args)
    (hopcode : phaseFrom .start opcode = some (.slots slots)) (hspan : bc.span opcode = opcode.length)
    (hproper : ∀ k, 0 < k → k < opcode.length → phaseFrom .start (opcode.take k) ≠ some .start)
    (hhead : opcode.head? = some (.byte insn.op))
    (hinsn : IsInsn bc pc insn (pc + opcode.length + bc.span taken))
    (hknown : ∀ eop, insn.eop = some eop → eop ∈ extendedOps)
    (hslots : insn.slots = bytes ++ slots) (hargs : insn.args = values ++ args)
    (hlen : values.length = bytes.length) (hbytes : .operand .label ∉ bytes) :
    InsnAt st bc i pc insn (opcode ++ taken) rest := by
  have hlast : bc.span (opcode ++ taken) = opcode.length + bc.span taken := by
    rw [span_append, hspan]
  refine ⟨?_, ?_, ?_, ?_, hknown, fun k hpos hk => ?_, fun lab hlab => ?_⟩
  · rw [List.head?_append, hhead]
    rfl
  · have hend := h.within hopcode (Nat.le_refl slots.length)
    rw [← h.length, ← List.length_append, List.take_length, h.length, List.drop_length] at hend
    exact hend
  · rw [hlast, List.length_append, ← Nat.add_assoc, ← Nat.add_assoc]
    exact h.stands
  · rw [hlast, ← Nat.add_assoc]
    exact hinsn
  · rw [List.length_append] at hk
    by_cases hlt : k < opcode.length
    · rw [List.take_append_of_le_length (Nat.le_of_lt hlt)]
      exact hproper k hpos hlt
    · obtain ⟨j, rfl⟩ := Nat.exists_eq_add_of_le (Nat.le_of_not_lt hlt)
      have hj : j < slots.length := by
        rw [← h.length]
        omega
      rw [h.within hopcode (Nat.le_of_lt hj), List.drop_eq_getElem_cons hj]
      nofun
  · obtain ⟨k, hslot, harg, hmarker⟩ := hlab
    rw [hslots] at hslot hmarker
    rw [hargs] at harg
    by_cases hlt : k < bytes.length
    · rw [List.getElem?_append_left hlt] at hslot
      exact absurd (List.mem_of_getElem? hslot) hbytes
    · obtain ⟨j, rfl⟩ := Nat.exists_eq_add_of_le (Nat.le_of_not_lt hlt)
      rw [List.getElem?_append_right (by omega), Nat.add_sub_cancel_left] at hslot
      rw [List.getElem?_append_right (by omega), hlen, Nat.add_sub_cancel_left] at harg
      obtain ⟨hj, hget⟩ := List.getElem?_eq_some_iff.mp hslot
      obtain ⟨f, hf, hkind, hpc, hvalue⟩ := h.labels j hslot
      have hopcodeLen : 0 < opcode.length := by
        cases opcode with
        | nil => exact nomatch hhead
        | cons _ _ => exact Nat.succ_pos _
      refine ⟨f, hf, opcode.length + j, ?_, by omega, hkind, by omega, ?_, fun hle => ?_⟩
      · rw [List.length_append, h.length]
        omega
      · rw [harg] at hvalue
        exact Option.some.inj hvalue
      · have hend := hmarker hle
        rw [List.length_append] at hend
        have hdrop : slots.drop (j + 1) = [] := List.drop_eq_nil_of_le (by omega)
        rw [h.within hopcode (Nat.le_of_lt hj), List.drop_eq_getElem_cons hj, hget, hdrop]

theorem addOperands_append (hsized : bc.Sized) {slots' : List Slot} : ∀ (slots : List Slot)
    {pc next : Nat} {args : List Nat}, addOperands bc (slots ++ slots') pc = some (args, next) →
    ∃ as as' pc', addOperands bc slots pc = some (as, pc') ∧
      addOperands bc slots' pc' = some (as', next) ∧ args = as ++ as'
  | [], pc, next, args, h => ⟨[], args, pc, rfl, h, rfl⟩
  | slot :: slots, pc, next, args, h => by
      obtain ⟨a, as, ha, hrest, rfl⟩ := addOperands_cons hsized h
      obtain ⟨as, as', pc', has, has', rfl⟩ := addOperands_append hsized slots hrest
      obtain ⟨value, hvalue, heq⟩ := Option.map_eq_some_iff.mp ha
      obtain rfl := (Prod.mk.inj heq).1
      exact ⟨value :: as, as', pc', addOperands_some hsized hvalue has, has', rfl⟩

theorem addBytes_some (hsized : bc.Sized) {slot : Slot} {pc a next : Nat}
    (h : bc.readBytes (bc.width slot) pc = some (a, next)) :
    bc.addBytes (bc.width slot) pc = some (a, next) := by
  rw [addBytes_eq (hsized.width slot)]
  exact h

/-- The operands of a scatter are those of the slots that its first operand tells. -/
theorem addScatter_some (hsized : bc.Sized) {nargs pc next : Nat} {args : List Nat}
    (hnargs : readBytes bc.vector pc 1 = some nargs)
    (h : addOperands bc (.byte :: .byte :: (targetSlots nargs ++ [.operand .label])) (pc + 1) =
      some (args, next)) : addScatter bc pc = some (nargs :: args, next) := by
  obtain ⟨a1, as1, ha1, h1, rfl⟩ := addOperands_cons hsized h
  obtain ⟨a2, as2, ha2, h2, rfl⟩ := addOperands_cons hsized h1
  obtain ⟨targets, as3, pc', htargets, h3, rfl⟩ := addOperands_append hsized _ h2
  obtain ⟨done, as4, hdone, hend, rfl⟩ := addOperands_cons hsized h3
  obtain ⟨rfl, rfl⟩ := addOperands_nil hend
  have hfirst : bc.addBytes (bc.width .byte) pc = some (nargs, pc + 1) := by
    refine addBytes_some hsized ?_
    show (readBytes bc.vector pc 1).map _ = _
    rw [hnargs]
    rfl
  refine (Scan.bind_eq hfirst _).trans ((Scan.bind_eq (addBytes_some hsized ha1) _).trans
    ((Scan.bind_eq (addBytes_some hsized ha2) _).trans ((Scan.bind_eq htargets _).trans ?_)))
  exact Scan.bind_eq (addBytes_some hsized hdone) _

theorem scatter_at (hsized : bc.Sized) {i pc : Nat} {nargs : UInt8} {items : List Item}
    (hop : bc.vector[pc]? = some Opcode.extended.byte)
    (heop : bc.vector[pc + 1]? = some ExtendedOpcode.scatter.byte)
    (hnargs : bc.vector[pc + 1 + 1]? = some nargs)
    (hphase : phaseFrom (.slots (.byte :: .byte :: (targetSlots nargs.toNat ++ [.operand .label])))
      items = some .start) (hstands : Stands st bc (i + 1 + 1 + 1) (pc + 1 + 1 + 1) items) :
    ∃ insn taken rest, .byte Opcode.extended.byte :: .byte ExtendedOpcode.scatter.byte ::
      .byte nargs :: items = taken ++ rest ∧ InsnAt st bc i pc insn taken rest := by
  obtain ⟨taken, rest, args, rfl, hread⟩ := read_slots hsized _ hphase hstands
  have hfirst : readBytes bc.vector (pc + 1 + 1) 1 = some nargs.toNat := by
    show (bc.vector[pc + 1 + 1]?).bind _ = _
    rw [hnargs]
    rfl
  have hslots : Insn.slots ⟨Opcode.extended.byte, some ExtendedOpcode.scatter.byte,
      nargs.toNat :: args⟩ =
      [.byte] ++ (.byte :: .byte :: (targetSlots nargs.toNat ++ [.operand .label])) := rfl
  have hproper : ∀ k, 0 < k → k < 3 → phaseFrom .start
      (([.byte Opcode.extended.byte, .byte ExtendedOpcode.scatter.byte, .byte nargs] :
        List Item).take k) ≠ some .start := by
    intro k hpos hk
    obtain rfl | rfl : k = 1 ∨ k = 2 := by omega
    · exact nofun
    · exact nofun
  have hinsn : InsnAt st bc i pc ⟨Opcode.extended.byte, some ExtendedOpcode.scatter.byte,
      nargs.toNat :: args⟩ ([.byte Opcode.extended.byte, .byte ExtendedOpcode.scatter.byte,
        .byte nargs] ++ taken) rest :=
    hread.insnAt [.byte] [nargs.toNat] rfl rfl hproper rfl
      (.extended hop heop (addScatter_some hsized hfirst hread.read))
      (fun eop heq => by cases heq; decide) hslots rfl rfl (by simp)
  exact ⟨_, _, rest, rfl, hinsn⟩

theorem extended_at (hsized : bc.Sized) {i pc : Nat} {items : List Item}
    (hop : bc.vector[pc]? = some Opcode.extended.byte) (hphase : phaseFrom .extended items = some .start)
    (hstands : Stands st bc (i + 1) (pc + 1) items) : ∃ insn taken rest,
    .byte Opcode.extended.byte :: items = taken ++ rest ∧ InsnAt st bc i pc insn taken rest := by
  rcases items with _ | ⟨⟨eop⟩ | kind, items⟩
  · cases hphase
  · obtain ⟨heop, hstands⟩ := hstands
    by_cases hscatter : eop = ExtendedOpcode.scatter.byte
    · subst hscatter
      rcases items with _ | ⟨⟨nargs⟩ | kind, items⟩
      · cases hphase
      · exact scatter_at hsized hop heop hstands.1 hphase hstands.2
      · cases hphase
    · by_cases hknown : eop ∈ extendedOps
      · have hstep : Phase.extended.step (.byte eop) = some (.slots (extendedSlots eop)) := by
          rw [Phase.step, if_neg hscatter, if_pos hknown]
        have hrest := phaseFrom_step hphase hstep
        obtain ⟨taken, rest, args, rfl, hread⟩ := read_slots hsized _ hrest hstands
        have hopcode : phaseFrom .start [.byte Opcode.extended.byte, .byte eop] =
            some (.slots (extendedSlots eop)) := by
          show (Phase.extended.step (.byte eop)).bind _ = _
          rw [hstep]
          rfl
        have hproper : ∀ k, 0 < k → k < 2 → phaseFrom .start
            (([.byte Opcode.extended.byte, .byte eop] : List Item).take k) ≠ some .start := by
          intro k hpos hk
          obtain rfl : k = 1 := by omega
          intro h
          cases h
        have hadd : addExtended bc eop (pc + 1 + 1) =
            some (args, pc + 1 + 1 + bc.span taken) := by
          rw [addExtended, if_neg hscatter]
          exact hread.read
        have hslots : Insn.slots ⟨Opcode.extended.byte, some eop, args⟩ = [] ++ extendedSlots eop :=
          if_neg hscatter
        have hinsn : InsnAt st bc i pc ⟨Opcode.extended.byte, some eop, args⟩
            ([.byte Opcode.extended.byte, .byte eop] ++ taken) rest :=
          hread.insnAt [] [] hopcode rfl hproper rfl (.extended hop heop hadd)
            (fun eop' heq => by cases heq; exact hknown) hslots rfl rfl List.not_mem_nil
        exact ⟨_, _, rest, rfl, hinsn⟩
      · have hstep : Phase.extended.step (.byte eop) = none := by
          rw [Phase.step, if_neg hscatter, if_neg hknown]
        have hbind : (Phase.extended.step (.byte eop)).bind (fun p => phaseFrom p items) =
          some .start := hphase
        rw [hstep] at hbind
        cases hbind
  · cases hphase

/-- Where an instruction is expected, there is one. -/
theorem insn_at (hsized : bc.Sized) {i pc : Nat} : ∀ {items : List Item},
    phaseFrom .start items = some .start → items ≠ [] → Stands st bc i pc items →
    ∃ insn taken rest, items = taken ++ rest ∧ InsnAt st bc i pc insn taken rest
  | [], _, hne, _ => absurd rfl hne
  | .operand _ :: _, hphase, _, _ => by cases hphase
  | .byte op :: items, hphase, _, ⟨hop, hstands⟩ => by
      by_cases hext : op = Opcode.extended.byte
      · subst hext
        exact extended_at hsized hop (phaseFrom_step hphase rfl) hstands
      · have hstep : Phase.start.step (.byte op) = some (.slots (opcodeSlots op)) := by
          rw [Phase.start, Phase.step, if_neg hext]
        have hrest := phaseFrom_step hphase hstep
        obtain ⟨taken, rest, args, rfl, hread⟩ := read_slots hsized _ hrest hstands
        have hopcode : phaseFrom .start [.byte op] = some (.slots (opcodeSlots op)) := by
          rw [phaseFrom, List.foldlM_cons, hstep]
          rfl
        have hinsn : InsnAt st bc i pc ⟨op, none, args⟩ ([.byte op] ++ taken) rest :=
          hread.insnAt [] [] hopcode rfl (fun k hpos hk => absurd hk (Nat.not_lt_of_le hpos)) rfl
            (.plain hop hext hread.read) (fun _ h => by cases h) rfl rfl rfl List.not_mem_nil
        exact ⟨_, _, rest, rfl, hinsn⟩

/-! ## Lines -/

theorem span_length (hsized : bc.Sized) (items : List Item) : items.length ≤ bc.span items := by
  rw [span_counts hsized]
  omega

/-- What is known of a line of the disassembler. -/
structure GoodLine (st : GenState) (bc : Bytecodes) (line : Line) : Prop where
  isInsn : IsInsn bc line.pc line.insn line.next
  known : ∀ eop, line.insn.eop = some eop → eop ∈ extendedOps
  behind : (∃ b, bc.vector[line.next]? = some b) ∨ line.insn.op = Opcode.done.byte
  labels : ∀ lab, line.insn.HasLabel lab → ∃ f ∈ st.fixups, f.kind = .label ∧
    line.pc < bc.place st.fixups f.pc ∧ bc.place st.fixups f.pc < line.next ∧
    lab = bc.operandValue f ∧
    (lab ≤ 1 → phaseOf (st.items.take f.pc) = some (.slots [.operand .label]))

/-- The phase within what is behind a place where an instruction begins. -/
theorem phaseOf_take {items : List Item} {i : Nat} {taken rest : List Item}
    (hstart : phaseOf (items.take i) = some .start) (hdrop : items.drop i = taken ++ rest) {k : Nat} (hk : k ≤ taken.length) :
    phaseOf (items.take (i + k)) = phaseFrom .start (taken.take k) := by
  have htake : items.take (i + k) = items.take i ++ taken.take k := by
    rw [List.take_add, hdrop, List.take_append_of_le_length hk]
  rw [htake, phaseOf, phaseFrom_append]
  show (phaseOf (items.take i)).bind _ = _
  rw [hstart]
  rfl

theorem InsnAt.ne_nil {i pc : Nat} {insn : Insn} {taken rest : List Item}
    (h : InsnAt st bc i pc insn taken rest) : 0 < taken.length := by
  cases taken with
  | nil => exact nomatch h.head
  | cons _ _ => exact Nat.succ_pos _

/-- The line of an instruction; the last instruction is `OP_DONE`. -/
theorem InsnAt.goodLine (h : Emitted st bc) {body : List Item}
    (hitems : st.items = body ++ [.byte Opcode.done.byte]) (hbody : phaseOf body = some .start)
    {i : Nat} (hstart : phaseOf (st.items.take i) = some .start) {insn : Insn} {taken rest : List Item}
    (hdrop : st.items.drop i = taken ++ rest)
    (hinsn : InsnAt st bc i (bc.span (st.items.take i)) insn taken rest) :
    GoodLine st bc ⟨bc.span (st.items.take i), insn, bc.span (st.items.take i) + bc.span taken⟩ where
  isInsn := hinsn.isInsn
  known := hinsn.known
  labels lab hlab := by
    obtain ⟨f, hf, k, hk, hpos, hkind, hpc, hvalue, hmarker⟩ := hinsn.labels lab hlab
    have hplace : bc.place st.fixups f.pc =
        bc.span (st.items.take i) + bc.span (taken.take k) := by
      have hle := Nat.le_of_lt (h.tidy.placed f hf)
      rw [← items_length] at hle
      rw [place_span h.tidy h.sized hle, hpc, List.take_add, hdrop,
        List.take_append_of_le_length (Nat.le_of_lt hk), span_append]
    have hbefore := span_length h.sized (taken.take k)
    have hbehind := span_length h.sized (taken.drop k)
    have hsum : bc.span taken = bc.span (taken.take k) + bc.span (taken.drop k) := by
      rw [← span_append, List.take_append_drop]
    rw [List.length_take] at hbefore
    rw [List.length_drop] at hbehind
    refine ⟨f, hf, hkind, ?_, ?_, hvalue, fun hle => ?_⟩
    · rw [hplace]
      show bc.span (st.items.take i) < _
      omega
    · rw [hplace]
      show _ < bc.span (st.items.take i) + bc.span taken
      omega
    · rw [hpc, phaseOf_take hstart hdrop (Nat.le_of_lt hk)]
      exact hmarker hle
  behind := by
    have hsum : bc.span st.items = bc.span (st.items.take i) + bc.span taken + bc.span rest := by
      conv_lhs => rw [← List.take_append_drop i st.items]
      rw [span_append, hdrop, span_append, ← Nat.add_assoc]
    have hlen : st.items.length - i = taken.length + rest.length := by
      rw [← List.length_drop, hdrop, List.length_append]
    have hpos := hinsn.ne_nil
    cases rest with
    | cons item rest =>
        have hwidth := span_length h.sized (item :: rest)
        rw [List.length_cons] at hwidth
        refine .inl ⟨_, List.getElem?_eq_getElem ?_⟩
        rw [h.length]
        show bc.span (st.items.take i) + bc.span taken < _
        omega
    | nil =>
        right
        rw [List.append_nil] at hdrop
        have hbodyLen : st.items.length = body.length + 1 := by rw [hitems, List.length_append]; rfl
        rw [List.length_nil] at hlen
        obtain ⟨k, hk⟩ : ∃ k, body.length = i + k := ⟨body.length - i, by omega⟩
        by_cases hzero : k = 0
        · have hlast : taken = [.byte Opcode.done.byte] := by
            rw [← hdrop, hitems, show i = body.length by omega, List.drop_left]
          have hhead := hinsn.head
          rw [hlast] at hhead
          exact (Item.byte.inj (Option.some.inj hhead)).symm
        · -- the body would end within the instruction
          have hmid : phaseOf (st.items.take (i + k)) = some .start := by
            rw [← hk, hitems, List.take_left]
            exact hbody
          have hwhole : st.items.drop i = taken ++ [] := by rw [hdrop, List.append_nil]
          rw [phaseOf_take hstart hwhole (by omega)] at hmid
          exact absurd hmid (hinsn.within k (by omega) (by omega))

theorem Emitted.lines (h : Emitted st bc) {body : List Item}
    (hitems : st.items = body ++ [.byte Opcode.done.byte]) (hbody : phaseOf body = some .start)
    (hphase : phaseOf st.items = some .start) (fuel : Nat) {i : Nat} (hi : i ≤ st.items.length)
    (hstart : phaseOf (st.items.take i) = some .start) (hfuel : st.items.length - i ≤ fuel) :
    ∃ lines, disassembleLoop bc (bc.span st.items) fuel (bc.span (st.items.take i)) =
        some (lines, bc.span st.items) ∧ (∀ line ∈ lines, GoodLine st bc line) ∧
      ∀ v, i ≤ v → v < st.items.length → phaseOf (st.items.take v) = some .start →
        ∃ line ∈ lines, line.pc = bc.span (st.items.take v) := by
  induction fuel generalizing i with
  | zero =>
      obtain rfl : i = st.items.length := by omega
      rw [List.take_length, disassembleLoop, if_neg (Nat.lt_irrefl _)]
      exact ⟨[], rfl, nofun, fun v hv hlt => absurd hlt (Nat.not_lt_of_le hv)⟩
  | succ fuel ih =>
      by_cases hend : i = st.items.length
      · subst hend
        rw [List.take_length, disassembleLoop, if_neg (Nat.lt_irrefl _)]
        exact ⟨[], rfl, nofun, fun v hv hlt => absurd hlt (Nat.not_lt_of_le hv)⟩
      · have hlt : i < st.items.length := by omega
        have hsplit := List.take_append_drop i st.items
        have hrest : phaseFrom .start (st.items.drop i) = some .start := by
          have hwhole := hphase
          rw [← hsplit, phaseOf, phaseFrom_append] at hwhole
          have hbind : (phaseOf (st.items.take i)).bind
            (fun p => phaseFrom p (st.items.drop i)) = some .start := hwhole
          rwa [hstart] at hbind
        have hne : st.items.drop i ≠ [] := by
          rw [Ne, List.drop_eq_nil_iff]
          omega
        obtain ⟨insn, taken, rest, hdrop, hinsn⟩ :=
          insn_at h.sized hrest hne (h.stands _ i rfl)
        have hpos := hinsn.ne_nil
        have hlen : st.items.length - i = taken.length + rest.length := by
          rw [← List.length_drop, hdrop, List.length_append]
        have htake : st.items.take (i + taken.length) = st.items.take i ++ taken := by
          rw [List.take_add, hdrop, List.take_left]
        have hnext : bc.span (st.items.take (i + taken.length)) =
            bc.span (st.items.take i) + bc.span taken := by rw [htake, span_append]
        have hstart' : phaseOf (st.items.take (i + taken.length)) = some .start := by
          rw [phaseOf_take hstart hdrop (Nat.le_refl _), List.take_length]
          exact hinsn.last
        obtain ⟨lines, hloop, hgood, hstarts⟩ := ih (by omega) hstart' (by omega)
        have hline := InsnAt.goodLine h hitems hbody hstart hdrop hinsn
        have hpc : bc.span (st.items.take i) < bc.span st.items := by
          have hsum : bc.span st.items =
              bc.span (st.items.take i) + bc.span (st.items.drop i) := by
            rw [← span_append, hsplit]
          have hwidth := span_length h.sized (st.items.drop i)
          rw [List.length_drop] at hwidth
          omega
        refine ⟨_ :: lines, ?_, List.forall_mem_cons.mpr ⟨hline, hgood⟩, fun v hv hvlt hvstart => ?_⟩
        · rw [disassembleLoop, if_pos hpc, hinsn.isInsn.disassemble, ← hnext]
          show (disassembleLoop _ _ _ _).bind _ = _
          rw [hloop]
          rfl
        · by_cases hfirst : v = i
          · subst hfirst
            exact ⟨_, List.mem_cons_self, rfl⟩
          · by_cases hwithin : v < i + taken.length
            · obtain ⟨k, rfl⟩ := Nat.exists_eq_add_of_le hv
              rw [phaseOf_take hstart hdrop (by omega)] at hvstart
              exact absurd hvstart (hinsn.within k (by omega) (by omega))
            · obtain ⟨line, hmem, hlinepc⟩ := hstarts v (Nat.le_of_not_lt hwithin) hvlt hvstart
              exact ⟨line, List.mem_cons_of_mem _ hmem, hlinepc⟩

/-! ## The format -/

/-- The operand of a label is the offset of the instruction at which the label was defined, which
    for the generator was at the byte `f.value`: behind the operand, or before it at the top of a
    loop, whose end had a label already. -/
def Defined (st : GenState) (bc : Bytecodes) (lines : List Line) (f : Fixup) : Prop :=
  (∃ line ∈ lines, line.pc = bc.operandValue f ∧ line.pc = bc.place st.fixups f.value) ∧
    (f.pc < f.value ∨ ∃ g ∈ st.fixups, g.kind = .label ∧ g.pc < f.pc)

/-- The disassembler takes the instructions of a vector, and ends at `bc.size`; the interpreter
    takes each of them, whatever is on its stack; and the labels among the operands are offsets of
    the instructions at which they were defined. -/
def OneFormat (st : GenState) (bc : Bytecodes) : Prop :=
  ∃ lines, disassemble bc (codeSize st) = some (lines, codeSize st) ∧
    bc.vector.length = codeSize st ∧
    (∀ line ∈ lines, ∀ choice, ∃ moved bv,
      runRound bc choice line.pc = some ((line.insn.op, line.insn.eop, moved), bv) ∧
      SameInsn bc line.insn.args line.next moved bv) ∧
    ∀ line ∈ lines, ∀ lab, line.insn.HasLabel lab → ∃ f ∈ st.fixups, f.kind = .label ∧
      line.pc < bc.place st.fixups f.pc ∧ bc.place st.fixups f.pc < line.next ∧
      lab = bc.operandValue f ∧ Defined st bc lines f

/-- A label that is right is the offset of its instruction, unless depths of the stack are before
    it that do not have one byte. -/
theorem Emitted.label (h : Emitted st bc)
    (hstack : st.items.count (.operand .stack) * (bc.numbytesStack - 1) = 0) {f : Fixup}
    (hkind : f.kind = .label) (hright : f.Right st.items) :
    bc.operandValue f = bc.span (st.items.take f.value) := by
  have hcount : ∀ kind, kind ≠ .stack →
      (st.items.take f.value).count (.operand kind) = f.prev kind := by
    intro kind hne
    rw [hright.counts kind, operandsBefore_counted _ _ hne]
  have hnone : (st.items.take f.value).count (.operand .stack) * (bc.numbytesStack - 1) = 0 := by
    have hle := (List.take_sublist f.value st.items).count_le (.operand .stack)
    exact Nat.le_zero.mp (hstack ▸ Nat.mul_le_mul_right _ hle)
  have hstacks : f.prevStacks = 0 := hright.counts .stack
  rw [span_counts h.sized, hcount .literal nofun, hcount .fork nofun, hcount .varRef nofun,
    hcount .label nofun, hnone, List.length_take, Nat.min_eq_left hright.place, Bytecodes.operandValue,
    hkind]
  simp only [Fixup.prev, hstacks, Nat.zero_mul]

theorem Fixup.Marker.operandValue {items : List Item} {f : Fixup} (h : f.Marker items)
    (hkind : f.kind = .label) : bc.operandValue f = f.value := by
  have hliterals : f.prevLiterals = 0 := h.counts .literal
  have hforks : f.prevForks = 0 := h.counts .fork
  have hvarRefs : f.prevVarRefs = 0 := h.counts .varRef
  have hlabels : f.prevLabels = 0 := h.counts .label
  have hstacks : f.prevStacks = 0 := h.counts .stack
  rw [Bytecodes.operandValue, hkind]
  simp only [hliterals, hforks, hvarRefs, hlabels, hstacks, Nat.zero_mul, Nat.add_zero]

theorem exists_label_before {i : Nat} (h : 0 < operandsBefore st.items i .label) :
    ∃ g ∈ st.fixups, g.kind = .label ∧ g.pc < i := by
  rw [operandsBefore_counted _ _ (show FixupKind.label ≠ .stack from nofun)] at h
  obtain ⟨j, hj, hget⟩ := List.mem_iff_getElem.mp (List.count_pos_iff.mp h)
  rw [List.getElem_take] at hget
  rw [List.length_take] at hj
  have hitem : st.items[j]? = some (.operand .label) := by
    rw [List.getElem?_eq_getElem (by omega), hget]
  obtain ⟨b, -, ⟨g, hg, hpc, hkind⟩ | ⟨-, hbyte⟩⟩ := item_cases hitem
  · exact ⟨g, hg, (Item.operand.inj hkind).symm, by omega⟩
  · exact nomatch hbyte

/-- A label is defined at a line, unless depths of the stack do not have one byte. -/
theorem Emitted.defined (h : Emitted st bc)
    (hstack : st.items.count (.operand .stack) * (bc.numbytesStack - 1) = 0) {body : List Item}
    (hitems : st.items = body ++ [.byte Opcode.done.byte]) {lines : List Line}
    (hstarts : ∀ v, v < st.items.length → phaseOf (st.items.take v) = some .start →
      ∃ line ∈ lines, line.pc = bc.span (st.items.take v))
    {f : Fixup} (hf : f ∈ st.fixups) (hkind : f.kind = .label) (hsettled : f.Settled body)
    (hlast : bc.operandValue f ≤ 1 → phaseOf (st.items.take f.pc) = some (.slots [.operand .label])) :
    Defined st bc lines f := by
  have hprefix : body <+: st.items := ⟨_, hitems.symm⟩
  have hlength : st.items.length = body.length + 1 := by rw [hitems, List.length_append]; rfl
  have hpc := h.tidy.placed f hf
  rw [← items_length] at hpc
  rcases hsettled with ⟨hright, hdefined⟩ | hmarker
  · have hgrown := hright.grow hprefix
    have hplace := hright.place
    obtain ⟨line, hline, hlinePc⟩ := hstarts f.value (by omega) hgrown.start
    have hvalue := h.label hstack hkind hgrown
    have hspan := place_span h.tidy h.sized hgrown.place
    refine ⟨⟨line, hline, hlinePc.trans hvalue.symm, hlinePc.trans hspan.symm⟩, ?_⟩
    refine hdefined.imp id fun hcount => exists_label_before ?_
    rw [operandsBefore_extend hprefix (by omega)]
    exact hcount
  · -- a marker is not the last operand
    rw [hmarker.operandValue hkind] at hlast
    obtain ⟨slot, rest, hphase⟩ := hmarker.target
    rw [← take_extend hprefix (by omega), hlast hmarker.value] at hphase
    exact nomatch hphase

theorem Emitted.numbytesStack (h : Emitted st bc) : bc.numbytesStack = refSize st.maxStack.toNat := by
  obtain ⟨vector, -, heq⟩ := h.eq
  rw [heq]
  rfl

theorem refSize_eq_one {n : Nat} : refSize n = 1 ↔ n ≤ 256 := by
  unfold refSize
  split
  · omega
  · split
    · omega
    · omega

/-- The disassembler and the interpreter take the same instructions of a vector, to its end, and
    its labels are offsets of the instructions where they were defined, exactly if it does not both
    need more than 256 cells of the stack and have a depth of the stack as an operand: of a `$`, a
    `break` or a `continue`. -/
theorem one_format_iff {stmts : StmtList} (hvalid : stmts.Valid []) (hnarrow : stmts.Narrow)
    {gstate : GState}
    (hrun : stmts.code (initState gstate) = some ((), st))
    (hfinish : finishVector st = some bc)
    (hfits : ∀ f ∈ st.fixups, bc.operandValue f < 256 ^ bc.operandSize f.kind) :
    OneFormat st bc ↔ ¬ (256 < stmts.height ∧ 0 < stmts.stackRefs) := by
  obtain ⟨hsound, body, hitems, hbody, hsettled⟩ := vector_sound hnarrow hrun
  obtain ⟨hmax, hrefs⟩ := vector_depth hvalid hrun
  have h : Emitted st bc := ⟨hsound.tidy, hfinish, hfits⟩
  have hsize := h.size hsound
  have hwidth : bc.numbytesStack = 1 ↔ ¬ 256 < stmts.height := by
    rw [h.numbytesStack, refSize_eq_one]
    omega
  have hpos : 0 < bc.numbytesStack := h.sized.pos .stack
  constructor
  · rintro ⟨lines, -, hlength, -⟩ ⟨hheight, hstacks⟩
    have hwide : bc.numbytesStack ≠ 1 := fun hone => hwidth.mp hone hheight
    have hmissing : 0 < countKind st.fixups .stack * (bc.numbytesStack - 1) := by
      apply Nat.mul_pos
      · omega
      · omega
    omega
  · intro hcond
    have hnone : countKind st.fixups .stack * (bc.numbytesStack - 1) = 0 := by
      rw [Nat.mul_eq_zero]
      by_cases hheight : 256 < stmts.height
      · left
        by_contra hstacks
        exact hcond ⟨hheight, by omega⟩
      · right
        rw [hwidth.mpr hheight]
    have hstack : st.items.count (.operand .stack) * (bc.numbytesStack - 1) = 0 := by
      rw [hsound.counted, hnone]
    have hspan : bc.span st.items = codeSize st := by
      have hlength := h.length
      omega
    have hfuel := span_length h.sized st.items
    obtain ⟨lines, hloop, hgood, hstarts⟩ := h.lines hitems hbody hsound.phase (codeSize st)
      (Nat.zero_le _) rfl (by omega)
    rw [hspan] at hloop
    refine ⟨lines, hloop, by omega, fun line hline choice => ?_, fun line hline lab hlab => ?_⟩
    · have hgoodLine := hgood line hline
      refine hgoodLine.isInsn.run h.sized hgoodLine.known (fun hop => ?_) choice
      rcases hgoodLine.behind with hbehind | hdone
      · exact hbehind
      · rw [hdone] at hop
        exact absurd hop (by decide)
    · obtain ⟨f, hf, hkind, hbefore, hbehind, rfl, hlast⟩ := (hgood line hline).labels lab hlab
      exact ⟨f, hf, hkind, hbefore, hbehind, rfl, h.defined hstack hitems
        (fun v hv hstart => hstarts v (Nat.zero_le v) hv hstart) hf hkind (hsettled f hf hkind) hlast⟩

/-- The size of the vector of some statements, and `bc.size`, if the operands fit. -/
def StmtList.sizes (stmts : StmtList) (gstate : GState) : Option (Nat × Nat) := do
  let (_, st) ← stmts.code (initState gstate)
  let bc ← finishVector st
  if st.fixups.all fun f => decide (bc.operandValue f < 256 ^ bc.operandSize f.kind) then
    some (bc.vector.length, codeSize st)
  else none

theorem StmtList.sizes_some {stmts : StmtList} {gstate : GState} {length size : Nat}
    (h : stmts.sizes gstate = some (length, size)) : ∃ st bc,
    stmts.code (initState gstate) = some ((), st) ∧ finishVector st = some bc ∧
      (∀ f ∈ st.fixups, bc.operandValue f < 256 ^ bc.operandSize f.kind) ∧
      bc.vector.length = length ∧ codeSize st = size := by
  unfold StmtList.sizes at h
  obtain ⟨⟨⟨⟩, st⟩, hrun, h⟩ := Option.bind_eq_some_iff.mp h
  obtain ⟨bc, hfinish, h⟩ := Option.bind_eq_some_iff.mp h
  split at h
  next hfits =>
    cases h
    exact ⟨st, bc, hrun, hfinish, fun f hf => of_decide_eq_true (List.all_eq_true.mp hfits f hf),
      rfl, rfl⟩
  next => exact nomatch h

/-- `while (1) break; endwhile`. -/
def loopOnce : Stmt := .while (-1) (.var (.int 1)) (.cons (.break (-1)) .nil)

theorem loopOnce_valid : loopOnce.Valid [] := .while .var (.cons (.break (List.cons_ne_nil _ _)) .nil)

theorem one_format_loopOnce : ∃ st bc,
    (StmtList.cons loopOnce .nil).code (initState initGstate) = some ((), st) ∧
      finishVector st = some bc ∧ OneFormat st bc := by
  have hsizes : (StmtList.cons loopOnce .nil).sizes initGstate = some (10, 10) := by decide +kernel
  obtain ⟨st, bc, hrun, hfinish, hfits, -, -⟩ := StmtList.sizes_some hsizes
  refine ⟨st, bc, hrun, hfinish, (one_format_iff (.cons loopOnce_valid .nil) ?_ hrun hfinish hfits).mpr ?_⟩
  · exact ⟨⟨trivial, trivial, trivial⟩, trivial⟩
  · decide +kernel

/-- `1 + (1 + (... + 1))`, with `n` sums. -/
def nestedSum : Nat → Expr
  | 0 => .var (.int 1)
  | n + 1 => .binary .plus (.var (.int 1)) (nestedSum n)

theorem nestedSum_valid : ∀ n, (nestedSum n).Valid false
  | 0 => .var
  | n + 1 => .binary .var (nestedSum_valid n)

theorem nestedSum_narrow : ∀ n, (nestedSum n).Narrow
  | 0 => trivial
  | n + 1 => ⟨trivial, nestedSum_narrow n⟩

/-- A `break` and a sum that needs 257 cells of the stack. -/
def deepProgram : StmtList := .cons loopOnce (.cons (.expr (nestedSum 256)) .nil)

/-- The vector has a byte more than `bc.size` says. -/
theorem one_format_fails : deepProgram.Valid [] ∧ deepProgram.Narrow ∧ ∃ st bc,
    deepProgram.code (initState initGstate) = some ((), st) ∧ finishVector st = some bc ∧
      (∀ f ∈ st.fixups, bc.operandValue f < 256 ^ bc.operandSize f.kind) ∧ ¬ OneFormat st bc := by
  have hsizes : deepProgram.sizes initGstate = some (528, 527) := by decide +kernel
  obtain ⟨st, bc, hrun, hfinish, hfits, hlength, hsize⟩ := StmtList.sizes_some hsizes
  refine ⟨.cons loopOnce_valid (.cons (.expr (nestedSum_valid 256)) .nil), ?_, st, bc, hrun, hfinish,
    hfits, ?_⟩
  · exact ⟨⟨trivial, trivial, trivial⟩, nestedSum_narrow 256, trivial⟩
  · rintro ⟨lines, -, hequal, -⟩
    rw [hlength, hsize] at hequal
    exact absurd hequal (by decide)

end Waverous
