import Waverous.CodeLabels

/-! # Where code comes to stand — `code_gen.c`, `execute.c`

    When a vector is finished, each byte of the generator comes to a place, with the operands
    before it at their sizes.  What the interpreter reads there is what the generator put
    there, and the operand of a label is the place where the label was defined. -/

namespace Waverous

variable {s s1 fin : GenState} {bc : Bytecodes} {F : List Fixup} {i : Nat}

/-- How many bytes the operand of a fixup has besides the first one. -/
def Bytecodes.extra (bc : Bytecodes) (f : Fixup) : Nat := bc.operandSize f.kind - 1

/-- The place of the byte `i`. -/
def Bytecodes.place (bc : Bytecodes) (F : List Fixup) (i : Nat) : Nat :=
  i + ((F.filter fun f => f.pc < i).map bc.extra).sum

/-! ## Relocation -/

theorem operandBytes_length {size value : Nat} {operand : List UInt8}
    (h : operandBytes size value = some operand) : operand.length = size ∧ 0 < size := by
  unfold operandBytes at h
  split at h
  · cases h
    exact ⟨rfl, by decide⟩
  · cases h
    exact ⟨rfl, by decide⟩
  · cases h
    exact ⟨rfl, by decide⟩
  · exact nomatch h

theorem filter_none {p : Fixup → Bool} (h : ∀ f ∈ F, p f = false) : F.filter p = [] := by
  rw [List.filter_eq_nil_iff]
  intro f hf
  rw [h f hf]
  exact Bool.false_ne_true

/-- The fixups from `i` on: those at `i`, and the others. -/
theorem filter_from (h : (F.map Fixup.pc).Pairwise (· < ·)) (i : Nat) :
    F.filter (fun f => i ≤ f.pc) =
      F.filter (fun f => f.pc = i) ++ F.filter (fun f => i + 1 ≤ f.pc) := by
  induction F with
  | nil => rfl
  | cons f F ih =>
      rw [List.map_cons, List.pairwise_cons] at h
      obtain ⟨hf, hF⟩ := h
      have hbehind : ∀ g ∈ F, f.pc < g.pc := fun g hg => hf g.pc (List.mem_map_of_mem hg)
      rw [List.filter_cons, List.filter_cons, List.filter_cons, ih hF]
      by_cases hlt : f.pc < i
      · rw [if_neg (by simpa using hlt), if_neg (by simp; omega), if_neg (by simp; omega)]
      · by_cases heq : f.pc = i
        · rw [if_pos (by simp; omega), if_pos (by simpa using heq), if_neg (by simp; omega)]
          rfl
        · have hnone : F.filter (fun g => decide (g.pc = i)) = [] := by
            refine filter_none fun g hg => ?_
            have := hbehind g hg
            simp
            omega
          rw [if_pos (by simp; omega), if_neg (by simpa using heq), if_pos (by simp; omega), hnone]
          rfl

theorem sum_filter_lt (g : Fixup → Nat) (i : Nat) :
    ((F.filter fun f => f.pc < i + 1).map g).sum =
      ((F.filter fun f => f.pc < i).map g).sum + ((F.filter fun f => f.pc = i).map g).sum := by
  induction F with
  | nil => rfl
  | cons f F ih =>
      rw [List.filter_cons, List.filter_cons, List.filter_cons]
      by_cases hlt : f.pc < i
      · rw [if_pos (by simp; omega), if_pos (by simpa using hlt), if_neg (by simp; omega)]
        simp only [List.map_cons, List.sum_cons, ih]
        omega
      · by_cases heq : f.pc = i
        · rw [if_pos (by simp; omega), if_neg (by simpa using hlt), if_pos (by simpa using heq)]
          simp only [List.map_cons, List.sum_cons, ih]
          omega
        · rw [if_neg (by simp; omega), if_neg (by simpa using hlt), if_neg (by simpa using heq), ih]

theorem place_succ (bc : Bytecodes) (F : List Fixup) (i : Nat) : bc.place F (i + 1) =
    bc.place F i + 1 + ((F.filter fun f => f.pc = i).map bc.extra).sum := by
  rw [Bytecodes.place, Bytecodes.place, sum_filter_lt]
  omega

theorem place_mono (bc : Bytecodes) (F : List Fixup) {i j : Nat} (h : i ≤ j) :
    bc.place F i ≤ bc.place F j := by
  obtain ⟨k, rfl⟩ := Nat.exists_eq_add_of_le h
  clear h
  induction k with
  | zero => exact Nat.le_refl _
  | succ k ih =>
      rw [← Nat.add_assoc, place_succ]
      omega

/-- There is at most one fixup at a byte. -/
theorem filter_at (h : (F.map Fixup.pc).Pairwise (· < ·)) {f : Fixup} (hf : f ∈ F) (hpc : f.pc = i) :
    F.filter (fun g => decide (g.pc = i)) = [f] := by
  induction F with
  | nil => exact nomatch hf
  | cons g F ih =>
      rw [List.map_cons, List.pairwise_cons] at h
      obtain ⟨hg, hF⟩ := h
      have hbehind : ∀ g' ∈ F, g.pc < g'.pc := fun g' hg' => hg g'.pc (List.mem_map_of_mem hg')
      rcases List.mem_cons.mp hf with rfl | hf
      · have hnone : F.filter (fun g => decide (g.pc = i)) = [] := by
          refine filter_none fun g' hg' => ?_
          have := hbehind g' hg'
          simp
          omega
        rw [List.filter_cons, if_pos (by simpa using hpc), hnone]
      · have := hbehind f hf
        rw [List.filter_cons, if_neg (by simp; omega), ih hF hf]

theorem place_succ_at (h : (F.map Fixup.pc).Pairwise (· < ·)) {f : Fixup} (hf : f ∈ F)
    (hpc : f.pc = i) : bc.place F (i + 1) = bc.place F i + 1 + bc.extra f := by
  rw [place_succ, filter_at h hf hpc, List.map_singleton, List.sum_singleton]

theorem filter_not_at (h : ∀ f ∈ F, f.pc ≠ i) : F.filter (fun f => decide (f.pc = i)) = [] :=
  filter_none fun f hf => by simpa using h f hf

theorem place_succ_other (h : ∀ f ∈ F, f.pc ≠ i) : bc.place F (i + 1) = bc.place F i + 1 := by
  rw [place_succ, filter_not_at h, List.map_nil, List.sum_nil, Nat.add_zero]

/-- At a fixup there is its operand. -/
theorem relocate_at {b : UInt8} {bytes vector : List UInt8} (hF : (F.map Fixup.pc).Pairwise (· < ·))
    {f : Fixup} (hf : f ∈ F) (hpc : f.pc = i)
    (h : relocate bc i (b :: bytes) (F.filter fun f => i ≤ f.pc) = some vector) :
    ∃ operand rest, operandBytes (bc.operandSize f.kind) (bc.operandValue f) = some operand ∧
      relocate bc (i + 1) bytes (F.filter fun f => i + 1 ≤ f.pc) = some rest ∧
      vector = operand ++ rest := by
  rw [filter_from hF, filter_at hF hf hpc, List.singleton_append, relocate, if_pos hpc] at h
  obtain ⟨operand, hoperand, h⟩ := Option.bind_eq_some_iff.mp h
  obtain ⟨rest, hrest, h⟩ := Option.bind_eq_some_iff.mp h
  exact ⟨operand, rest, hoperand, hrest, (Option.some.inj h).symm⟩

/-- Elsewhere there is the byte. -/
theorem relocate_other {b : UInt8} {bytes vector : List UInt8}
    (hF : (F.map Fixup.pc).Pairwise (· < ·)) (hno : ∀ f ∈ F, f.pc ≠ i)
    (h : relocate bc i (b :: bytes) (F.filter fun f => i ≤ f.pc) = some vector) :
    ∃ rest, relocate bc (i + 1) bytes (F.filter fun f => i + 1 ≤ f.pc) = some rest ∧
      vector = b :: rest := by
  rw [filter_from hF, filter_not_at hno, List.nil_append] at h
  cases hfrom : F.filter (fun f => decide (i + 1 ≤ f.pc)) with
  | nil =>
      rw [hfrom, relocate] at h
      obtain ⟨rest, hrest, h⟩ := Option.bind_eq_some_iff.mp h
      exact ⟨rest, hrest, (Option.some.inj h).symm⟩
  | cons f fs =>
      have hmem : f ∈ F.filter fun f => decide (i + 1 ≤ f.pc) := hfrom ▸ List.mem_cons_self
      have hpc : f.pc ≠ i := hno f (List.mem_of_mem_filter hmem)
      rw [hfrom, relocate, if_neg hpc] at h
      obtain ⟨rest, hrest, h⟩ := Option.bind_eq_some_iff.mp h
      exact ⟨rest, hrest, (Option.some.inj h).symm⟩

/-- What is left to relocate at the byte `i` is the vector from the place of `i` on. -/
theorem relocate_drop {bytes vector : List UInt8} (hF : (F.map Fixup.pc).Pairwise (· < ·))
    (h : relocate bc 0 bytes F = some vector) (hi : i ≤ bytes.length) :
    relocate bc i (bytes.drop i) (F.filter fun f => i ≤ f.pc) = some (vector.drop (bc.place F i)) := by
  induction i with
  | zero =>
      have hall : F.filter (fun f => decide (0 ≤ f.pc)) = F := by
        rw [List.filter_eq_self]
        intro f _
        simp
      have hnone : F.filter (fun f => decide (f.pc < 0)) = [] := filter_none fun f _ => by simp
      rw [hall, Bytecodes.place, hnone]
      exact h
  | succ i ih =>
      have hrun := ih (by omega)
      rw [List.drop_eq_getElem_cons (by omega)] at hrun
      by_cases hat : ∃ f ∈ F, f.pc = i
      · obtain ⟨f, hf, hpc⟩ := hat
        obtain ⟨operand, rest, hoperand, hrest, hdrop⟩ := relocate_at hF hf hpc hrun
        obtain ⟨hlen, hpos⟩ := operandBytes_length hoperand
        have hsize : bc.place F i + 1 + bc.extra f = bc.place F i + operand.length := by
          rw [Bytecodes.extra]
          omega
        rw [hrest, place_succ_at hF hf hpc, hsize, ← List.drop_drop, hdrop, List.drop_left]
      · have hno : ∀ f ∈ F, f.pc ≠ i := fun f hf hpc => hat ⟨f, hf, hpc⟩
        obtain ⟨rest, hrest, hdrop⟩ := relocate_other hF hno hrun
        rw [hrest, place_succ_other hno, ← List.drop_drop, hdrop, List.drop_one, List.tail_cons]

/-! ## Reading -/

/-- `READ_BYTES`, for operands of one, two and four bytes. -/
def readBytes (code : List UInt8) (pc nb : Nat) : Option Nat :=
  match nb with
  | 1 => do
      let b ← code[pc]?
      some b.toNat
  | 2 => do
      let b1 ← code[pc]?
      let b0 ← code[pc + 1]?
      some (b1.toNat * 2 ^ 8 + b0.toNat)
  | _ => do
      let b3 ← code[pc]?
      let b2 ← code[pc + 1]?
      let b1 ← code[pc + 2]?
      let b0 ← code[pc + 3]?
      some (b3.toNat * 2 ^ 24 + b2.toNat * 2 ^ 16 + b1.toNat * 2 ^ 8 + b0.toNat)

/-- What has been put as an operand is read, if it fits. -/
theorem readBytes_operand {code operand rest : List UInt8} {pc size value : Nat}
    (h : operandBytes size value = some operand) (hcode : code.drop pc = operand ++ rest)
    (hvalue : value < 256 ^ size) : readBytes code pc size = some value := by
  have hget : ∀ k, code[pc + k]? = (operand ++ rest)[k]? := by
    intro k
    rw [← hcode, List.getElem?_drop]
  have hget0 : code[pc]? = (operand ++ rest)[0]? := hget 0
  unfold operandBytes at h
  split at h
  · cases h
    simp only [readBytes, hget0, hget, List.cons_append, List.getElem?_cons_zero,
      List.getElem?_cons_succ, Option.bind_eq_bind, Option.bind_some, UInt8.toNat_ofNat']
    congr 1
    omega
  · cases h
    simp only [readBytes, hget0, hget, List.cons_append, List.getElem?_cons_zero,
      List.getElem?_cons_succ, Option.bind_eq_bind, Option.bind_some, UInt8.toNat_ofNat']
    congr 1
    omega
  · cases h
    simp only [readBytes, hget0, List.cons_append, List.getElem?_cons_zero,
      Option.bind_eq_bind, Option.bind_some, UInt8.toNat_ofNat']
    congr 1
    omega
  · exact nomatch h

/-! ## What the generator has put -/

/-- The vector that is made of the last state of a generator; all operands fit. -/
structure Finished (fin : GenState) (bc : Bytecodes) : Prop where
  tidy : fin.Tidy
  finish : finishVector fin = some bc
  stackCount : bc.numbytesStack = 1
  fits : ∀ f ∈ fin.fixups, bc.operandValue f < 256 ^ bc.operandSize f.kind

/-- The place of the next byte of a state. -/
def GenState.place (s : GenState) (bc : Bytecodes) (fin : GenState) : Nat :=
  bc.place fin.fixups s.bytes.length

theorem relocate_vector (bc : Bytecodes) (vector : List UInt8) (bytes : List UInt8) (i : Nat)
    (F : List Fixup) : relocate { bc with vector := vector } i bytes F = relocate bc i bytes F := by
  induction bytes generalizing i F with
  | nil => rfl
  | cons b bytes ih =>
      cases F with
      | nil =>
          rw [relocate, relocate, ih]
      | cons f F =>
          have hvalue : Bytecodes.operandValue { bc with vector := vector } f = bc.operandValue f := rfl
          have hsize : Bytecodes.operandSize { bc with vector := vector } f.kind =
              bc.operandSize f.kind := rfl
          rw [relocate, relocate, ih, ih, hvalue, hsize]

theorem Finished.relocate (h : Finished fin bc) :
    relocate bc 0 fin.bytes fin.fixups = some bc.vector := by
  have hfinish := h.finish
  unfold finishVector at hfinish
  split at hfinish
  · exact nomatch hfinish
  · split at hfinish
    · exact nomatch hfinish
    · obtain ⟨vector, hvector, hfinish⟩ := Option.bind_eq_some_iff.mp hfinish
      cases hfinish
      rw [relocate_vector]
      exact hvector

/-- The fixups of a state are those before its next byte. -/
theorem Grown.before (hg : Grown s fin) (ht : s.Tidy) {j : Nat} {f : Fixup}
    (hf : fin.fixups[j]? = some f) : f.pc < s.bytes.length ↔ j < s.fixups.length := by
  constructor
  · intro hpc
    by_contra hj
    have := hg.later j f hf (Nat.le_of_not_lt hj)
    omega
  · intro hj
    obtain ⟨f', hf', hshape⟩ := hg.fixups j _ (List.getElem?_eq_getElem hj)
    rw [hf] at hf'
    cases hf'
    have hpc : f.pc = s.fixups[j].pc := congrArg (fun x => x.2.1) hshape
    rw [hpc]
    exact ht.placed _ (List.getElem_mem hj)

theorem Grown.byte (hg : Grown s1 fin) {b : UInt8} (hbytes : s1.bytes = s.bytes ++ [b]) :
    fin.bytes.drop s.bytes.length = b :: fin.bytes.drop (s.bytes.length + 1) := by
  obtain ⟨rest, hrest⟩ := hg.bytes
  rw [← hrest, hbytes, List.append_assoc, List.drop_left, ← List.drop_drop, List.drop_left]
  rfl

/-- A byte stands at its place. -/
theorem Finished.byte (h : Finished fin bc) (ht : s.Tidy) {b : UInt8}
    (hbytes : s1.bytes = s.bytes ++ [b]) (hfixups : s1.fixups = s.fixups) (hg : Grown s1 fin) :
    bc.vector[s.place bc fin]? = some b ∧ s1.place bc fin = s.place bc fin + 1 := by
  have hlen : s1.bytes.length = s.bytes.length + 1 := by
    rw [hbytes, List.length_append, List.length_singleton]
  have hno : ∀ f ∈ fin.fixups, f.pc ≠ s.bytes.length := by
    intro f hf hpc
    obtain ⟨j, hj⟩ := List.getElem?_of_mem hf
    by_cases hlt : j < s.fixups.length
    · obtain ⟨f', hf', hshape⟩ := hg.fixups j _ (by rw [hfixups]; exact List.getElem?_eq_getElem hlt)
      rw [hj] at hf'
      cases hf'
      have hpc' : f.pc = s.fixups[j].pc := congrArg (fun x => x.2.1) hshape
      have := ht.placed _ (List.getElem_mem hlt)
      omega
    · have := hg.later j f hj (by rw [hfixups]; exact Nat.le_of_not_lt hlt)
      omega
  have hdrop := relocate_drop h.tidy.sorted h.relocate
    (Nat.le_trans (Nat.le_of_lt (by omega)) hg.bytes.length_le : s.bytes.length ≤ fin.bytes.length)
  rw [hg.byte hbytes] at hdrop
  obtain ⟨rest, -, hvector⟩ := relocate_other h.tidy.sorted hno hdrop
  constructor
  · rw [← List.head?_drop, GenState.place, hvector]
    rfl
  · rw [GenState.place, hlen, place_succ_other hno]
    rfl

/-- The operand of a fixup stands at its place, and is read there. -/
theorem Finished.operand (h : Finished fin bc) {f : Fixup}
    (hbytes : s1.bytes = s.bytes ++ [0])
    (hfixups : s1.fixups = s.fixups ++ [{ f with pc := s.bytes.length }]) (hg : Grown s1 fin) :
    ∃ f' : Fixup, fin.fixups[s.fixups.length]? = some f' ∧ f'.kind = f.kind ∧
      readBytes bc.vector (s.place bc fin) (bc.operandSize f.kind) = some (bc.operandValue f') ∧
      s1.place bc fin = s.place bc fin + bc.operandSize f.kind := by
  have hlen : s1.bytes.length = s.bytes.length + 1 := by
    rw [hbytes, List.length_append, List.length_singleton]
  obtain ⟨f', hf', hshape⟩ := hg.fixups s.fixups.length _ (by
    rw [hfixups, List.getElem?_concat_length])
  have hkind : f'.kind = f.kind := congrArg (fun x => x.1) hshape
  have hpc : f'.pc = s.bytes.length := congrArg (fun x => x.2.1) hshape
  have hmem := List.mem_of_getElem? hf'
  have hdrop := relocate_drop h.tidy.sorted h.relocate
    (Nat.le_trans (Nat.le_of_lt (by omega)) hg.bytes.length_le : s.bytes.length ≤ fin.bytes.length)
  rw [hg.byte hbytes] at hdrop
  obtain ⟨operand, rest, hoperand, -, hvector⟩ := relocate_at h.tidy.sorted hmem hpc hdrop
  have hpos := (operandBytes_length hoperand).2
  rw [hkind] at hoperand hpos
  have hfits := h.fits f' hmem
  rw [hkind] at hfits
  refine ⟨f', hf', hkind, readBytes_operand hoperand hvector hfits, ?_⟩
  rw [GenState.place, hlen, place_succ_at h.tidy.sorted hmem hpc, Bytecodes.extra, hkind, GenState.place]
  omega

/-- The bytes that operands have, kind by kind. -/
theorem sum_extra (bc : Bytecodes) (F : List Fixup) : (F.map bc.extra).sum =
    countKind F .literal * (bc.numbytesLiteral - 1) + countKind F .fork * (bc.numbytesFork - 1) +
      countKind F .varRef * (bc.numbytesVarName - 1) + countKind F .label * (bc.numbytesLabel - 1) +
      countKind F .stack * (bc.numbytesStack - 1) := by
  induction F with
  | nil => simp [countKind]
  | cons f F ih =>
      have hcount : ∀ kind, countKind (f :: F) kind = countKind F kind + if f.kind = kind then 1 else 0 := by
        intro kind
        rw [countKind, countKind, List.countP_cons]
        simp
      rw [List.map_cons, List.sum_cons, ih]
      simp only [hcount]
      cases hk : f.kind <;> simp [Bytecodes.extra, Bytecodes.operandSize, hk, Nat.add_mul] <;> omega

/-- The fixups before the next byte of a state are its own. -/
theorem Grown.filter (hg : Grown s fin) (ht : s.Tidy) :
    fin.fixups.filter (fun f => f.pc < s.bytes.length) = fin.fixups.take s.fixups.length := by
  have hlt : ∀ f ∈ fin.fixups.take s.fixups.length, f.pc < s.bytes.length := by
    intro f hf
    obtain ⟨j, hj⟩ := List.getElem?_of_mem hf
    rw [List.getElem?_take] at hj
    split at hj
    next hlt => exact (hg.before ht hj).mpr hlt
    next => exact nomatch hj
  have hge : ∀ f ∈ fin.fixups.drop s.fixups.length, ¬ f.pc < s.bytes.length := by
    intro f hf hpc
    obtain ⟨j, hj⟩ := List.getElem?_of_mem hf
    rw [List.getElem?_drop] at hj
    have := (hg.before ht hj).mp hpc
    omega
  conv_lhs => rw [← List.take_append_drop s.fixups.length fin.fixups]
  rw [List.filter_append, List.filter_eq_self.mpr (fun f hf => by simpa using hlt f hf),
    filter_none (fun f hf => by simpa using hge f hf), List.append_nil]

theorem Grown.count (hg : Grown s fin) (kind : FixupKind) :
    countKind (fin.fixups.take s.fixups.length) kind = countKind s.fixups kind := by
  have hmap : (fin.fixups.take s.fixups.length).map Fixup.shape = s.fixups.map Fixup.shape := by
    ext j : 1
    rw [List.getElem?_map, List.getElem?_map, List.getElem?_take]
    split
    next hlt =>
      have hget := List.getElem?_eq_getElem hlt
      obtain ⟨f', hf', hshape⟩ := hg.fixups j _ hget
      rw [hf', hget]
      exact congrArg some hshape
    next hge =>
      rw [List.getElem?_eq_none (Nat.le_of_not_lt hge), Option.map_none]
  rw [countKind_shape, hmap, ← countKind_shape]

/-- The operand of a label is the place where it was defined. -/
theorem Finished.label (h : Finished fin bc) (ht : s.Tidy) (hg : Grown s fin) {f : Fixup}
    (hf : f.kind = .label) : bc.operandValue (s.here f) = s.place bc fin := by
  have hkind : (s.here f).kind = .label := hf
  have hcount : ∀ kind, kind ≠ .stack → s.num kind =
      countKind (fin.fixups.take s.fixups.length) kind := by
    intro kind hk
    rw [hg.count, ht.counted kind hk]
  have hsum := sum_extra bc (fin.fixups.take s.fixups.length)
  rw [← hcount .literal nofun, ← hcount .fork nofun, ← hcount .varRef nofun, ← hcount .label nofun,
    h.stackCount] at hsum
  rw [GenState.place, Bytecodes.place, hg.filter ht, hsum]
  unfold Bytecodes.operandValue
  rw [hkind, h.stackCount]
  simp only [GenState.here, GenState.num]
  omega

/-! ## Each function that emits -/

section

variable {u : Unit} {b : UInt8} {l : Nat}

/-- A byte is where it was emitted. -/
theorem Finished.emitted (h : Finished fin bc) (ht : s.Tidy) (hrun : emitByte b s = some (u, s1))
    (hg : Grown s1 fin) :
    bc.vector[s.place bc fin]? = some b ∧ s1.place bc fin = s.place bc fin + 1 := by
  cases hrun
  exact h.byte ht rfl rfl hg

theorem addVarRef_run {slot : Nat} (hrun : addVarRef slot s = some (u, s1)) :
    ∃ f : Fixup, f.kind = .varRef ∧ f.value = slot ∧ s1.bytes = s.bytes ++ [0] ∧
      s1.fixups = s.fixups ++ [{ f with pc := s.bytes.length }] := by
  cases hrun
  refine ⟨_, ?_, ?_, rfl, rfl⟩
  · rfl
  · rfl

theorem addLinkedLabel_run {next : Option Nat} (hrun : addLinkedLabel next s = some (l, s1)) :
    l = s.fixups.length ∧ ∃ f : Fixup, f.kind = .label ∧ s1.bytes = s.bytes ++ [0] ∧
      s1.fixups = s.fixups ++ [{ f with pc := s.bytes.length }] := by
  cases hrun
  refine ⟨rfl, _, ?_, rfl, rfl⟩
  rfl

/-- The slot of a variable is read where it was emitted. -/
theorem Finished.varRef {slot : Nat} (h : Finished fin bc) (hrun : addVarRef slot s = some (u, s1))
    (hg : Grown s1 fin)
    (hstays : fin.fixups[s.fixups.length]? = s1.fixups[s.fixups.length]?) :
    readBytes bc.vector (s.place bc fin) bc.numbytesVarName = some slot ∧
      s1.place bc fin = s.place bc fin + bc.numbytesVarName := by
  obtain ⟨f, hf, rfl, hbytes, hfixups⟩ := addVarRef_run hrun
  obtain ⟨f', hf', hkind, hread, hplace⟩ := h.operand hbytes hfixups hg
  rw [hf] at hkind hread hplace
  refine ⟨?_, hplace⟩
  rw [hstays, hfixups, List.getElem?_concat_length] at hf'
  cases hf'
  rw [Bytecodes.operandValue, hkind] at hread
  exact hread

/-- The operand of a label is read where it was emitted. -/
theorem Finished.linkedLabel {next : Option Nat} (h : Finished fin bc)
    (hrun : addLinkedLabel next s = some (l, s1)) (hg : Grown s1 fin) :
    ∃ f : Fixup, fin.fixups[l]? = some f ∧ f.kind = .label ∧
      readBytes bc.vector (s.place bc fin) bc.numbytesLabel = some (bc.operandValue f) ∧
      s1.place bc fin = s.place bc fin + bc.numbytesLabel := by
  obtain ⟨rfl, f, hf, hbytes, hfixups⟩ := addLinkedLabel_run hrun
  have hoperand := h.operand hbytes hfixups hg
  rw [hf] at hoperand
  exact hoperand

/-- The operand of a known label is read where it was emitted. -/
theorem Finished.knownLabel {f : Fixup} (h : Finished fin bc) (hf : f.kind = .label)
    (hrun : addKnownLabel f s = some (l, s1)) (hg : Grown s1 fin)
    (hstays : fin.fixups[s.fixups.length]? = s1.fixups[s.fixups.length]?) :
    readBytes bc.vector (s.place bc fin) bc.numbytesLabel = some (bc.operandValue f) ∧
      s1.place bc fin = s.place bc fin + bc.numbytesLabel := by
  have hshape : s1.bytes = s.bytes ++ [0] ∧
      s1.fixups = s.fixups ++ [{ f with pc := s.bytes.length }] := by
    cases hrun
    exact ⟨rfl, rfl⟩
  obtain ⟨hbytes, hfixups⟩ := hshape
  obtain ⟨f', hf', hkind, hread, hplace⟩ := h.operand hbytes hfixups hg
  rw [hf] at hread hplace
  refine ⟨?_, hplace⟩
  rw [hstays, hfixups, List.getElem?_concat_length] at hf'
  cases hf'
  exact hread

end

end Waverous
