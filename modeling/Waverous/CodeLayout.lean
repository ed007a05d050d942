import Waverous.CodeLabels
import Waverous.Disassemble
import Waverous.Lib.Triples

/-! # How code is laid out — `code_gen.c`

    The bytes of the generator, with the placeholders of operands told apart, are a sequence of
    instructions as the disassembler takes them apart.  A label is defined, or captured, only
    where an instruction begins, and what it is given counts the operands before that place.  A
    label that is not defined yet waits: it is in the chain of a label that some function still
    has to define, or of a loop that is to end. -/

namespace Waverous

open Links Views

variable {α β : Type} {s s' : GenState} {f : Fixup}

/-! ## Items -/

/-- A byte of the generator, which may be the placeholder of an operand. -/
inductive Item where
  | byte (b : UInt8)
  | operand (kind : FixupKind)
  deriving DecidableEq

/-- What the byte `i` is. -/
def itemAt (fixups : List Fixup) (i : Nat) (b : UInt8) : Item :=
  (((fixups.find? fun f => f.pc = i).map Fixup.kind).map Item.operand).getD (.byte b)

/-- The bytes of a state. -/
def GenState.items (s : GenState) : List Item := s.bytes.mapIdx (itemAt s.fixups)

@[simp] theorem items_length (s : GenState) : s.items.length = s.bytes.length := List.length_mapIdx

theorem itemAt_none {fixups : List Fixup} {i : Nat} (b : UInt8) (h : ∀ f ∈ fixups, f.pc ≠ i) :
    itemAt fixups i b = .byte b := by
  have hnone : fixups.find? (fun f => decide (f.pc = i)) = none := by
    rw [List.find?_eq_none]
    intro f hf
    simpa using h f hf
  rw [itemAt, hnone]
  rfl

/-- The shapes of the fixups are enough to tell. -/
theorem itemAt_congr {fixups fixups' : List Fixup}
    (h : fixups.map Fixup.shape = fixups'.map Fixup.shape) : itemAt fixups = itemAt fixups' := by
  have hkind : ∀ (fixups : List Fixup) (i : Nat),
      (fixups.find? fun f => decide (f.pc = i)).map Fixup.kind =
        ((fixups.map Fixup.shape).find? fun x => decide (x.2.1 = i)).map fun x => x.1 := by
    intro fixups i
    rw [List.find?_map, Option.map_map]
    rfl
  funext i b
  rw [itemAt, itemAt, hkind, hkind, h]

/-- A byte has been added. -/
theorem items_byte {b : UInt8} (ht : s.Tidy) (hbytes : s'.bytes = s.bytes ++ [b])
    (hfixups : s'.fixups = s.fixups) : s'.items = s.items ++ [.byte b] := by
  have hno : ∀ f ∈ s.fixups, f.pc ≠ s.bytes.length := fun f hf => Nat.ne_of_lt (ht.placed f hf)
  rw [GenState.items, hbytes, hfixups, List.mapIdx_append, List.mapIdx_singleton, Nat.zero_add,
    itemAt_none b hno]
  rfl

/-- A fixup has been added, with its placeholder. -/
theorem items_fixup (ht : s.Tidy) (hbytes : s'.bytes = s.bytes ++ [0])
    (hfixups : s'.fixups = s.fixups ++ [{ f with pc := s.bytes.length }]) :
    s'.items = s.items ++ [.operand f.kind] := by
  have hnone : s.fixups.find? (fun f => decide (f.pc = s.bytes.length)) = none := by
    rw [List.find?_eq_none]
    intro f hf
    simpa using Nat.ne_of_lt (ht.placed f hf)
  have hnew : itemAt s'.fixups s.bytes.length 0 = .operand f.kind := by
    rw [itemAt, hfixups, List.find?_append, hnone]
    simp
  have hsame : ∀ i b, i < s.bytes.length → itemAt s'.fixups i b = itemAt s.fixups i b := by
    intro i b hi
    have hne : s.bytes.length ≠ i := by omega
    rw [itemAt, itemAt, hfixups, List.find?_append]
    simp [hne]
  have hold : s.bytes.mapIdx (itemAt s'.fixups) = s.items := by
    refine List.ext_getElem (by simp) fun i hi _ => ?_
    rw [List.length_mapIdx] at hi
    simp only [GenState.items, List.getElem_mapIdx]
    exact hsame i _ hi
  rw [GenState.items, hbytes, List.mapIdx_append, List.mapIdx_singleton, Nat.zero_add, hold, hnew]

/-- What is put into the fixups does not matter. -/
theorem items_same (hbytes : s'.bytes = s.bytes)
    (hfixups : s'.fixups.map Fixup.shape = s.fixups.map Fixup.shape) : s'.items = s.items := by
  rw [GenState.items, GenState.items, hbytes, itemAt_congr hfixups]

/-! ## Phases -/

/-- What is expected next: operands, and then an instruction; or what follows one of the opcodes
    that do not tell alone what follows. -/
inductive Phase where
  | slots (rest : List Slot)
  | extended
  | scatter
  deriving DecidableEq

/-- One item further. -/
def Phase.step : Phase → Item → Option Phase
  | .slots [], .byte b =>
      some (if b = Opcode.extended.byte then .extended else .slots (opcodeSlots b))
  | .slots (.byte :: rest), .byte _ => some (.slots rest)
  | .slots (.operand kind :: rest), .operand kind' =>
      if kind = kind' then some (.slots rest) else none
  | .extended, .byte b =>
      if b = ExtendedOpcode.scatter.byte then some .scatter
      else if b ∈ extendedOps then some (.slots (extendedSlots b)) else none
  | .scatter, .byte nargs =>
      some (.slots (.byte :: .byte :: (targetSlots nargs.toNat ++ [.operand .label])))
  | _, _ => none

theorem step_operand {kind : FixupKind} {slots : List Slot} :
    Phase.step (.slots (.operand kind :: slots)) (.operand kind) = some (.slots slots) := if_pos rfl

/-- The phase after some items. -/
def phaseFrom (p : Phase) (items : List Item) : Option Phase := items.foldlM Phase.step p

/-- An instruction is expected. -/
abbrev Phase.start : Phase := .slots []

/-- The phase after the items of a vector. -/
def phaseOf (items : List Item) : Option Phase := phaseFrom .start items

theorem phaseOf_concat {items : List Item} {item : Item} {p p' : Phase}
    (h : phaseOf items = some p) (hstep : p.step item = some p') :
    phaseOf (items ++ [item]) = some p' := by
  rw [phaseOf, phaseFrom, List.foldlM_append]
  show (phaseOf items).bind _ = _
  rw [h]
  show (p.step item).bind _ = _
  rw [hstep]
  rfl

/-! ## Labels -/

/-- A counter of a label. -/
def Fixup.prev (f : Fixup) : FixupKind → Nat
  | .literal => f.prevLiterals
  | .fork => f.prevForks
  | .varRef => f.prevVarRefs
  | .label => f.prevLabels
  | .stack => f.prevStacks

/-- How many operands of a kind there are before the byte `i`, where those that are depths of the
    stack are not counted. -/
def operandsBefore (items : List Item) (i : Nat) : FixupKind → Nat
  | .stack => 0
  | kind => (items.take i).count (.operand kind)

theorem operandsBefore_counted (items : List Item) (i : Nat) {kind : FixupKind}
    (h : kind ≠ .stack) : operandsBefore items i kind = (items.take i).count (.operand kind) := by
  cases kind with
  | stack => exact absurd rfl h
  | _ => rfl

/-- A label has been given a place where an instruction begins, and the counters of it. -/
structure Fixup.Right (items : List Item) (f : Fixup) : Prop where
  place : f.value ≤ items.length
  start : phaseOf (items.take f.value) = some .start
  counts : ∀ kind, f.prev kind = operandsBefore items f.value kind

/-- A 0 or 1 in place of a label, among the targets of a scatter. -/
structure Fixup.Marker (items : List Item) (f : Fixup) : Prop where
  value : f.value ≤ 1
  counts : ∀ kind, f.prev kind = 0
  target : ∃ slot rest, phaseOf (items.take f.pc) = some (.slots (.operand .label :: slot :: rest))

/-- A label has been defined, or it is a known one.  A label that is not defined has the value 0
    and the counters of its own place, which a label before it makes wrong for the place 0. -/
def Fixup.Settled (items : List Item) (f : Fixup) : Prop :=
  (f.Right items ∧ (f.pc < f.value ∨ 0 < operandsBefore items f.pc .label)) ∨ f.Marker items

theorem take_extend {items items' : List Item} {i : Nat} (h : items <+: items')
    (hi : i ≤ items.length) : items'.take i = items.take i := by
  obtain ⟨rest, rfl⟩ := h
  rw [List.take_append_of_le_length hi]

theorem operandsBefore_extend {items items' : List Item} {i : Nat} (h : items <+: items')
    (hi : i ≤ items.length) : operandsBefore items' i = operandsBefore items i := by
  funext kind
  cases kind <;> simp only [operandsBefore, take_extend h hi]

theorem Fixup.Right.grow {items items' : List Item} (hr : f.Right items) (h : items <+: items') :
    f.Right items' where
  place := Nat.le_trans hr.place h.length_le
  start := by
    rw [take_extend h hr.place]
    exact hr.start
  counts kind := by
    rw [operandsBefore_extend h hr.place]
    exact hr.counts kind

theorem Fixup.Settled.grow {items items' : List Item} (hs : f.Settled items) (h : items <+: items')
    (hpc : f.pc ≤ items.length) : f.Settled items' := by
  rcases hs with ⟨hr, hdefined⟩ | hm
  · left
    rw [operandsBefore_extend h hpc]
    exact ⟨hr.grow h, hdefined⟩
  · right
    refine ⟨hm.value, hm.counts, ?_⟩
    rw [take_extend h hpc]
    exact hm.target

/-- A label waits for one of the labels `H` to be defined, or for a loop to end. -/
def GenState.Waits (s : GenState) (H : List Nat) (r : Nat) : Prop :=
  (∃ l ∈ H, Links.On (nextLabel s.fixups) r l) ∨ ∃ loop ∈ s.loops, loop.On r s.fixups

/-- What holds between the functions of the generator: `p` is expected next, the labels `H` are
    still to be defined, and the labels `T` have been captured.  If `q`, then there is a label. -/
structure Sound (p : Phase) (H : List Nat) (T : List Fixup) (q : Prop) (s : GenState) : Prop where
  tidy : s.Tidy
  phase : phaseOf s.items = some p
  labels : ∀ (r : Nat) (f : Fixup), s.fixups[r]? = some f → f.kind = .label →
    f.Settled s.items ∨ s.Waits H r
  known : ∀ top ∈ T, top.kind = .label ∧ top.Right s.items
  tops : ∀ loop ∈ s.loops, loop.topLabel.Right s.items
  labelled : q → 0 < s.numLabels
  entered : s.loops ≠ [] → 0 < s.numLabels
  counted : ∀ kind, s.items.count (.operand kind) = countKind s.fixups kind

section

variable {p p' : Phase} {H H' : List Nat} {T : List Fixup} {q : Prop}

theorem GenState.Waits.mono {r : Nat} (h : s.Waits H r) (hsub : ∀ l ∈ H, l ∈ H') : s.Waits H' r := by
  rcases h with ⟨l, hl, hon⟩ | hloop
  · exact .inl ⟨l, hsub l hl, hon⟩
  · exact .inr hloop

theorem GenState.Waits.grow {r : Nat} (h : s.Waits H r) (hg : Grown s s')
    (hloops : s'.loops = s.loops) : s'.Waits H r := by
  rcases h with ⟨l, hl, hon⟩ | ⟨loop, hloop, b, hb, hon⟩
  · exact .inl ⟨l, hl, hon.extends hg.next⟩
  · exact .inr ⟨loop, hloops ▸ hloop, b, hb, hon.extends hg.next⟩

/-- Labels that are not there may be said to wait. -/
theorem Sound.mono (h : Sound p H T q s) (hsub : ∀ l ∈ H, l ∈ H') : Sound p H' T q s where
  tidy := h.tidy
  phase := h.phase
  labels r f hf hkind := (h.labels r f hf hkind).imp_right fun hw => hw.mono hsub
  known := h.known
  tops := h.tops
  labelled := h.labelled
  entered := h.entered
  counted := h.counted

/-- Less may be known. -/
theorem Sound.forget {T' : List Fixup} {q' : Prop} (h : Sound p H T q s) (hT : ∀ top ∈ T', top ∈ T)
    (hq : q' → q) : Sound p H T' q' s where
  tidy := h.tidy
  phase := h.phase
  labels := h.labels
  known top htop := h.known top (hT top htop)
  tops := h.tops
  labelled hq' := h.labelled (hq hq')
  entered := h.entered
  counted := h.counted

/-- Items have been added, and the labels are given. -/
theorem Sound.grow (h : Sound p H T q s) (ht : s'.Tidy) (hitems : s.items <+: s'.items)
    (hloops : s'.loops = s.loops) (hnum : s.numLabels ≤ s'.numLabels)
    (hphase : phaseOf s'.items = some p')
    (hcounted : ∀ kind, s'.items.count (.operand kind) = countKind s'.fixups kind)
    (hlabels : ∀ (r : Nat) (f : Fixup), s'.fixups[r]? = some f → f.kind = .label →
      f.Settled s'.items ∨ s'.Waits H' r) : Sound p' H' T q s' where
  tidy := ht
  phase := hphase
  labels := hlabels
  known top htop := ⟨(h.known top htop).1, (h.known top htop).2.grow hitems⟩
  tops loop hloop := (h.tops loop (hloops ▸ hloop)).grow hitems
  labelled hq := Nat.lt_of_lt_of_le (h.labelled hq) hnum
  entered hne := Nat.lt_of_lt_of_le (h.entered (hloops ▸ hne)) hnum
  counted := hcounted

/-- A label that was there is settled, or it waits as before. -/
theorem Sound.label (h : Sound p H T q s) (hitems : s.items <+: s'.items) {r : Nat}
    (hf : s.fixups[r]? = some f) (hkind : f.kind = .label) :
    f.Settled s'.items ∨ s.Waits H r := by
  refine (h.labels r f hf hkind).imp_left fun hs => hs.grow hitems ?_
  rw [items_length]
  exact Nat.le_of_lt (h.tidy.placed f (List.mem_of_getElem? hf))

/-- A byte has been added. -/
theorem Sound.byte {b : UInt8} (h : Sound p H T q s) (hstep : p.step (.byte b) = some p')
    (hbytes : s'.bytes = s.bytes ++ [b]) (hfixups : s'.fixups = s.fixups)
    (hd : Done [] s s' []) (hloops : s'.loops = s.loops) (hnum : s'.numLabels = s.numLabels) :
    Sound p' H T q s' := by
  have hitems := items_byte h.tidy hbytes hfixups
  have hgrow : s.items <+: s'.items := hitems ▸ List.prefix_append _ _
  refine h.grow hd.tidy hgrow hloops (Nat.le_of_eq hnum.symm) ?_ (fun kind => ?_)
    fun r f hf hkind => ?_
  · rw [hitems]
    exact phaseOf_concat h.phase hstep
  · rw [hitems, hfixups, List.count_append, h.counted]
    simp
  · rw [hfixups] at hf
    exact (h.label hgrow hf hkind).imp_right fun hw => hw.grow hd.grown hloops

/-- A fixup has been added; if it is a label, then it is settled or waits. -/
theorem Sound.fixup {g : Fixup} (h : Sound p H T q s) (hbytes : s'.bytes = s.bytes ++ [0])
    (hfixups : s'.fixups = s.fixups ++ [{ g with pc := s.bytes.length }])
    (hstep : p.step (.operand g.kind) = some p') (hd : Done [] s s' []) (hloops : s'.loops = s.loops) (hnum : s.numLabels ≤ s'.numLabels)
    (hwaits : ∀ r, s.Waits H r → s'.Waits H' r)
    (hnew : g.kind = .label → Fixup.Settled s'.items { g with pc := s.bytes.length } ∨
      s'.Waits H' s.fixups.length) : Sound p' H' T q s' := by
  have hitems := items_fixup h.tidy hbytes hfixups
  have hgrow : s.items <+: s'.items := hitems ▸ List.prefix_append _ _
  refine h.grow hd.tidy hgrow hloops hnum ?_ (fun kind => ?_) fun r f hf hkind => ?_
  · rw [hitems]
    exact phaseOf_concat h.phase hstep
  · rw [hitems, hfixups, List.count_append, h.counted, countKind, countKind, List.countP_append]
    simp [List.count_singleton, List.countP_singleton]
  · rw [hfixups] at hf
    by_cases hr : r < s.fixups.length
    · rw [List.getElem?_append_left hr] at hf
      exact (h.label hgrow hf hkind).imp_right (hwaits r)
    · obtain ⟨hlt, hget⟩ := List.getElem?_eq_some_iff.mp hf
      rw [List.length_append, List.length_singleton] at hlt
      have hlast : r = s.fixups.length := by omega
      subst hlast
      rw [List.getElem?_concat_length] at hf
      cases hf
      exact hnew hkind

/-! ## Functions that emit -/

theorem Silent.lays {m : Gen α} (h : Silent m) :
    Triple (Sound p H T q) m fun _ => Sound p H T q := by
  intro s a s' hs hrun
  have hd := h.does s a s' hrun hs.tidy (H := [])
  obtain ⟨hbytes, hfixups, hloops, hnum⟩ := h s a s' hrun
  have hitems : s'.items = s.items := items_same hbytes (by rw [hfixups])
  refine hs.grow hd.tidy (hitems ▸ List.prefix_rfl) hloops (Nat.le_of_eq (congrFun hnum .label).symm)
    (hitems ▸ hs.phase) (fun kind => by rw [hitems, hfixups, hs.counted]) fun r f hf hkind => ?_
  rw [hfixups] at hf
  rw [hitems]
  exact (hs.labels r f hf hkind).imp_right fun hw => hw.grow hd.grown hloops

theorem lays_panic {Q : α → GenState → Prop} : Triple (Sound p H T q) (panic : Gen α) Q :=
  fun _ _ _ _ hrun => nomatch hrun

theorem lays_emitByte {b : UInt8} (hstep : p.step (.byte b) = some p') :
    Triple (Sound p H T q) (emitByte b) fun _ => Sound p' H T q := by
  intro s u s' hs hrun
  have hd := does_emitByte b s u s' hrun hs.tidy (H := [])
  cases hrun
  exact hs.byte hstep rfl rfl hd rfl rfl

/-- An opcode that is an instruction. -/
theorem lays_plain {b : UInt8} (hop : b ∉ operandOps) (hext : b ≠ Opcode.extended.byte) :
    Triple (Sound .start H T q) (emitByte b) fun _ => Sound .start H T q := by
  refine lays_emitByte ?_
  rw [Phase.start, Phase.step, if_neg hext, opcodeSlots_nil hop]

theorem lays_addLiteral (v : Var) {slots : List Slot} :
    Triple (Sound (.slots (.operand .literal :: slots)) H T q) (addLiteral v)
      fun _ => Sound (.slots slots) H T q := by
  intro s u s' hs hrun
  have hd := does_addLiteral v s u s' hrun hs.tidy (H := [])
  cases hrun
  exact hs.fixup rfl rfl step_operand hd rfl (Nat.le_refl _) (fun r hw => hw.grow hd.grown rfl) nofun

theorem lays_addFork (b : Bytecodes) {slots : List Slot} :
    Triple (Sound (.slots (.operand .fork :: slots)) H T q) (addFork b)
      fun _ => Sound (.slots slots) H T q := by
  intro s u s' hs hrun
  have hd := does_addFork b s u s' hrun hs.tidy (H := [])
  cases hrun
  exact hs.fixup rfl rfl step_operand hd rfl (Nat.le_refl _) (fun r hw => hw.grow hd.grown rfl) nofun

theorem lays_addVarRef (slot : Nat) {slots : List Slot} :
    Triple (Sound (.slots (.operand .varRef :: slots)) H T q) (addVarRef slot)
      fun _ => Sound (.slots slots) H T q := by
  intro s u s' hs hrun
  have hd := does_addVarRef slot s u s' hrun hs.tidy (H := [])
  cases hrun
  exact hs.fixup rfl rfl step_operand hd rfl (Nat.le_refl _) (fun r hw => hw.grow hd.grown rfl) nofun

theorem lays_addStackRef (index : Int) {slots : List Slot} :
    Triple (Sound (.slots (.operand .stack :: slots)) H T q) (addStackRef index)
      fun _ => Sound (.slots slots) H T q := by
  intro s u s' hs hrun
  have hd := does_addStackRef index s u s' hrun hs.tidy (H := [])
  cases hrun
  exact hs.fixup rfl rfl step_operand hd rfl (Nat.le_refl _) (fun r hw => hw.grow hd.grown rfl) nofun

/-! ### Labels -/

/-- A new label waits, and so does what had waited for the label behind it. -/
theorem lays_addLoopLabel {next : Option Nat} {slots : List Slot} :
    Triple (Sound (.slots (.operand .label :: slots)) (next.toList ++ H) T q) (addLinkedLabel next)
      fun l => Sound (.slots slots) (l :: H) T True := by
  intro s l s' hs hrun
  obtain ⟨hd, rfl, hloops, f, hkind, hnext, hfixups⟩ := addLinkedLabel_spec hrun hs.tidy (H := [])
  have hget : nextLabel s'.fixups s.fixups.length = some next :=
    nextLabel_some.mpr ⟨{ f with pc := s.bytes.length },
      by rw [hfixups, List.getElem?_concat_length], hkind, hnext⟩
  have hbytes : s'.bytes = s.bytes ++ [0] := by
    cases hrun
    rfl
  have hnum : s'.numLabels = s.numLabels + 1 := by
    cases hrun
    rfl
  have hstep : Phase.step (.slots (.operand .label :: slots)) (.operand f.kind) =
      some (.slots slots) := by
    rw [hkind]
    exact step_operand
  have hsound : Sound (.slots slots) (s.fixups.length :: H) T q s' := by
    refine hs.fixup hbytes hfixups hstep hd hloops (by omega) (fun r hw => ?_) fun _ => .inr ?_
    · rcases hw with ⟨b, hb, hon⟩ | hloop
      · rcases List.mem_append.mp hb with hb | hb
        · have hlt : b < s.fixups.length := by
            obtain ⟨x, hx⟩ := Option.isSome_iff_exists.mp hon.isSome
            obtain ⟨g, hg, -⟩ := nextLabel_some.mp hx
            exact (List.getElem?_eq_some_iff.mp hg).1
          rw [Option.mem_toList.mp hb] at hget
          exact .inl ⟨_, List.mem_cons_self, .link hget hlt (hon.extends hd.grown.next)⟩
        · exact .inl ⟨b, List.mem_cons_of_mem _ hb, hon.extends hd.grown.next⟩
      · exact GenState.Waits.grow (.inr hloop) hd.grown hloops
    · exact .inl ⟨_, List.mem_cons_self, .here (by rw [hget]; rfl)⟩
  exact { hsound with labelled := fun _ => by omega }

theorem lays_addLinkedLabel {next : Option Nat} {slots : List Slot} :
    Triple (Sound (.slots (.operand .label :: slots)) (next.toList ++ H) T q) (addLinkedLabel next)
      fun l => Sound (.slots slots) (l :: H) T q :=
  lays_addLoopLabel.after fun _ _ hs => hs.forget (fun _ htop => htop) fun _ => trivial

theorem lays_addLabel {slots : List Slot} :
    Triple (Sound (.slots (.operand .label :: slots)) H T q) addLabel
      fun l => Sound (.slots slots) (l :: H) T q :=
  show Triple (Sound _ (Option.toList none ++ H) T q) (addLinkedLabel none) _ from
    lays_addLinkedLabel

theorem lays_addPseudoLabel {value : Nat} (hvalue : value ≤ 1) {slots : List Slot}
    (hslots : slots ≠ []) :
    Triple (Sound (.slots (.operand .label :: slots)) H T q) (addPseudoLabel value)
      fun _ => Sound (.slots slots) H T q := by
  intro s u s' hs hrun
  obtain ⟨slot, slots, rfl⟩ := List.exists_cons_of_ne_nil hslots
  have hd := does_addPseudoLabel value s u s' hrun hs.tidy (H := [])
  cases hrun
  refine hs.fixup rfl rfl step_operand hd rfl (Nat.le_succ _) (fun r hw => hw.grow hd.grown rfl)
    fun _ => .inl (.inr ⟨hvalue, fun kind => ?_, slot, slots, ?_⟩)
  · cases kind <;> rfl
  · rw [items_fixup hs.tidy rfl rfl]
    show phaseOf (List.take s.bytes.length _) = _
    rw [← items_length, List.take_left]
    exact hs.phase

/-- The counters of a state are those of its items. -/
theorem Sound.num (h : Sound p H T q s) (kind : FixupKind) :
    s.num kind = operandsBefore s.items s.items.length kind := by
  by_cases hkind : kind = .stack
  · subst hkind
    exact h.tidy.stackCount
  · rw [h.tidy.counted kind hkind, ← h.counted, operandsBefore_counted _ _ hkind, List.take_length]

theorem lays_addKnownLabel {top : Fixup} (htop : top ∈ T) {slots : List Slot} :
    Triple (Sound (.slots (.operand .label :: slots)) H T True) (addKnownLabel top)
      fun _ => Sound (.slots slots) H T True := by
  intro s u s' hs hrun
  obtain ⟨hkind, hright⟩ := hs.known top htop
  have hd := does_addKnownLabel hkind s u s' hrun hs.tidy (H := [])
  cases hrun
  refine hs.fixup rfl rfl (by rw [hkind]; exact step_operand) hd rfl (Nat.le_succ _)
    (fun r hw => hw.grow hd.grown rfl) fun _ => .inl (.inl ⟨?_, .inr ?_⟩)
  · have hgrow : s.items <+: (s.items ++ [Item.operand top.kind]) := List.prefix_append _ _
    rw [items_fixup hs.tidy rfl rfl]
    exact ⟨(hright.grow hgrow).place, (hright.grow hgrow).start, (hright.grow hgrow).counts⟩
  · have hgrow : s.items <+: (s.items ++ [Item.operand top.kind]) := List.prefix_append _ _
    rw [items_fixup hs.tidy rfl rfl]
    show 0 < operandsBefore _ s.bytes.length .label
    rw [← items_length, operandsBefore_extend hgrow (Nat.le_refl _), ← hs.num]
    exact hs.labelled trivial

/-- What a label is given where an instruction begins is right. -/
theorem Sound.here_right (h : Sound .start H T q s) (f : Fixup) : (s.here f).Right s.items where
  place := Nat.le_of_eq (items_length s).symm
  start := by
    show phaseOf (s.items.take s.bytes.length) = _
    rw [← items_length, List.take_length]
    exact h.phase
  counts kind := by
    show _ = operandsBefore s.items s.bytes.length kind
    rw [← items_length, ← h.num]
    cases kind <;> rfl

theorem lays_captureLabel : Triple (Sound .start H T q) captureLabel
    fun top => Sound .start H (top :: T) q := by
  intro s top s' hs hrun
  cases hrun
  refine { hs with known := fun top htop => ?_ }
  rcases List.mem_cons.mp htop with rfl | htop
  · exact ⟨rfl, hs.here_right _⟩
  · exact hs.known top htop

/-- The loop of `define_label` changes a fixup not at all, or gives it the next byte. -/
theorem getElem?_defineChain_cases (s : GenState) {fuel : Nat} {label : Option Nat}
    {fixups : List Fixup} {r : Nat} (hf : fixups[r]? = some f) :
    (defineChain s fuel label fixups)[r]? = some f ∨
      (defineChain s fuel label fixups)[r]? = some (s.here f) := by
  induction fuel generalizing label fixups with
  | zero => exact .inl hf
  | succ fuel ih =>
      cases label with
      | none => exact .inl hf
      | some l =>
          rw [defineChain]
          by_cases hlr : l = r
          · subst hlr
            right
            refine getElem?_defineChain_here s ?_
            rw [List.getElem?_modify_eq, hf]
            rfl
          · exact ih (by rw [List.getElem?_modify_ne _ _ hlr, hf])

/-- Whatever has waited for the label does not wait any longer. -/
theorem lays_defineLabel {label : Option Nat} :
    Triple (Sound .start (label.toList ++ H) T q) (defineLabel label)
      fun _ => Sound .start H T q := by
  intro s u s' hs hrun
  have hd := does_defineLabel (H := label.toList) (fun n hn => Option.mem_toList.mpr hn) s u s' hrun
    hs.tidy
  cases hrun
  have hmap : (defineChain s s.fixups.length label s.fixups).map Fixup.shape =
      s.fixups.map Fixup.shape := map_shape_defineChain s
  have hchain : ∀ r l, label = some l → Links.On (nextLabel s.fixups) r l → ∀ f,
      s.fixups[r]? = some f →
      (defineChain s s.fixups.length label s.fixups)[r]? = some (s.here f) := by
    rintro r l rfl hon f hf
    obtain ⟨x, hx⟩ := Option.isSome_iff_exists.mp hon.isSome
    obtain ⟨g, hg, -⟩ := nextLabel_some.mp hx
    exact getElem?_defineChain_on s hon (List.getElem?_eq_some_iff.mp hg).1 hf
  have hcases : ∀ r f, s.fixups[r]? = some f →
      (defineChain s s.fixups.length label s.fixups)[r]? = some f ∨
      (defineChain s s.fixups.length label s.fixups)[r]? = some (s.here f) :=
    fun r f hf => getElem?_defineChain_cases s hf
  show Sound .start H T q { s with fixups := defineChain s s.fixups.length label s.fixups }
  generalize hF : defineChain s s.fixups.length label s.fixups = F at hmap hchain hcases ⊢
  have hd' : Done label.toList s { s with fixups := F } [] := hF ▸ hd
  have hitems : GenState.items { s with fixups := F } = s.items := items_same rfl hmap
  refine hs.grow hd'.tidy (hitems ▸ List.prefix_rfl) rfl (Nat.le_refl _) (hitems ▸ hs.phase)
    (fun kind => ?_) fun r f' hf' hkind' => ?_
  · rw [hitems, hs.counted, countKind_shape, ← hmap, ← countKind_shape]
  · rw [hitems]
    have hlt : r < s.fixups.length := by
      have hlen := congrArg List.length hmap
      rw [List.length_map, List.length_map] at hlen
      exact hlen ▸ (List.getElem?_eq_some_iff.mp hf').1
    have hf := List.getElem?_eq_getElem hlt
    -- a fixup that is given the next byte is right, since an instruction begins there
    have hhere : F[r]? = some (s.here s.fixups[r]) → f'.Settled s.items := by
      intro hF'
      rw [hF'] at hf'
      cases hf'
      have hpc := hs.tidy.placed _ (List.getElem_mem hlt)
      exact .inl ⟨hs.here_right _, .inl hpc⟩
    rcases hcases r _ hf with hsame | hF'
    · rw [hf'] at hsame
      cases hsame
      rcases hs.labels r _ hf hkind' with hsettled | ⟨l, hl, hon⟩ | hloop
      · exact .inl hsettled
      · rcases List.mem_append.mp hl with hl | hl
        · exact .inl (hhere (hchain r l (Option.mem_toList.mp hl) hon _ hf))
        · exact .inr (.inl ⟨l, hl, hon.extends hd'.grown.next⟩)
      · exact .inr (GenState.Waits.grow (.inr hloop) hd'.grown rfl)
    · exact .inl (hhere hF')

/-! ### Loops -/

theorem lays_enterLoop {id topStack bottomStack : Int} {top : Fixup} {label : Option Nat}
    (htop : top ∈ T) : Triple (Sound p (label.toList ++ H) T True)
      (enterLoop id top topStack label bottomStack) fun _ => Sound p H T True := by
  intro s u s' hs hrun
  obtain ⟨hkind, hright⟩ := hs.known top htop
  cases hrun
  refine ⟨hs.tidy.enter _ hkind, hs.phase, fun r f hf hk => ?_, hs.known, fun loop hloop => ?_,
    hs.labelled, fun _ => hs.labelled trivial, hs.counted⟩
  · rcases hs.labels r f hf hk with hsettled | ⟨l, hl, hon⟩ | ⟨loop, hloop, hon⟩
    · exact .inl hsettled
    · rcases List.mem_append.mp hl with hl | hl
      · exact .inr (.inr ⟨_, List.mem_cons_self, l, Option.mem_toList.mp hl, hon⟩)
      · exact .inr (.inl ⟨l, hl, hon⟩)
    · exact .inr (.inr ⟨loop, List.mem_cons_of_mem _ hloop, hon⟩)
  · rcases List.mem_cons.mp hloop with rfl | hloop
    · exact hright
    · exact hs.tops loop hloop

theorem lays_exitLoop :
    Triple (Sound p H T q) exitLoop fun b => Sound p (b.toList ++ H) T q := by
  intro s b s' hs hrun
  rw [exitLoop] at hrun
  split at hrun
  next loop loops hloops =>
    cases hrun
    have hsub : ∀ loop' ∈ loops, loop' ∈ s.loops := fun loop' hmem =>
      hloops ▸ List.mem_cons_of_mem _ hmem
    have htidy : GenState.Tidy { s with loops := loops } :=
      ⟨hs.tidy.sorted, hs.tidy.placed, hs.tidy.counted, hs.tidy.stackCount, fun loop' hmem =>
        hs.tidy.tops loop' (hsub loop' hmem)⟩
    refine ⟨htidy, hs.phase, fun r f hf hk => ?_, hs.known,
      fun loop' hmem => hs.tops loop' (hsub loop' hmem), hs.labelled,
      fun _ => hs.entered (by rw [hloops]; exact List.cons_ne_nil _ _), hs.counted⟩
    rcases hs.labels r f hf hk with hsettled | ⟨l, hl, hon⟩ | ⟨loop', hloop, b, hb, hon⟩
    · exact .inl hsettled
    · exact .inr (.inl ⟨l, List.mem_append_right _ hl, hon⟩)
    · rw [hloops] at hloop
      rcases List.mem_cons.mp hloop with rfl | hloop
      · exact .inr (.inl ⟨b, List.mem_append_left _ (Option.mem_toList.mpr hb), hon⟩)
      · exact .inr (.inr ⟨loop', hloop, b, hb, hon⟩)
  next => cases hrun

end

end Waverous
