import Waverous.CodeGen
import Waverous.Words
import Mathlib.Data.List.Sort

/-! # The pass of `BYTECODE_REDUCE_REF` — `code_gen.c`

    In a build with that option, the generator notes for each byte if it pushes or puts a variable,
    ends the verb or calls one, and how many handlers are around it.  A pass over the basic blocks,
    each from its end to its beginning, then makes of the last use of a variable an
    `OP_PUSH_CLEAR`.  Its index is unsigned, so that it never gets below the first block, which
    begins at 0: for no program does the pass come to an end. -/

namespace Waverous

/-- `State`, with what `BYTECODE_REDUCE_REF` adds to it and the pass reads. -/
structure ReduceState extends GenState where
  pushmap : List UInt8
  trymap : List UInt8

/-- `OP_PUSH_CLEAR`, which is behind `OP_G_PUSH`. -/
def opPushClear : UInt8 := Opcode.gPush.byte + 1

/-- `OP_DONE`, behind the opcodes from `OP_PUSH_CLEAR` to `OP_G_PUSH_CLEAR`. -/
def opDone : UInt8 := Opcode.done.byte + 33

/-- `NON_VR_VAR_MASK`: not `argstr`, `dobj`, `dobjstr`, `prepstr`, `iobj`, `iobjstr` and `player`. -/
def nonVrVarMask : UInt32 :=
  let bit (slot : UInt32) : UInt32 := 1 <<< slot
  ~~~(bit 10 ||| bit 11 ||| bit 12 ||| bit 13 ||| bit 14 ||| bit 15 ||| bit 5)

namespace ReduceState

variable (st : ReduceState)

/-- The body of the loop over `old_i`: `state.bytes` and `varbits` afterwards. -/
def visit (oldI : UInt32) (bytes : List UInt8) (varbits : UInt32) : Looping (List UInt8 × UInt32) := do
  let op ← bufAt st.pushmap oldI.toNat
  if op = Opcode.push.byte then do
    let b ← bufAt bytes oldI.toNat
    let bit : UInt32 := 1 <<< (b - Opcode.push.byte).toUInt32
    if varbits &&& bit ≠ 0 then
      pure (bytes.set oldI.toNat (b + (opPushClear - Opcode.push.byte)), varbits &&& ~~~bit)
    else pure (bytes, varbits)
  else do
    let depth ← bufAt st.trymap oldI.toNat
    if 0 < depth then pure (bytes, varbits)
    else if op = Opcode.put.byte then do
      let b ← bufAt bytes oldI.toNat
      pure (bytes, varbits ||| 1 <<< (b - Opcode.put.byte).toUInt32)
    else if op = opDone then pure (bytes, ~~~0)
    else if op = Opcode.callVerb.byte then pure (bytes, varbits &&& nonVrVarMask)
    else pure (bytes, varbits)

/-- `for (; old_i >= bbd[n_bbd - 1]; --old_i)`, where `old_i` is unsigned. -/
def reduceBlock (lo : Nat) : Nat → UInt32 → List UInt8 → UInt32 → Looping (List UInt8)
  | 0, _, _, _ => (none : Option _)
  | fuel + 1, oldI, bytes, varbits =>
      if UInt32.ofNat lo ≤ oldI then do
        let (bytes, varbits) ← st.visit oldI bytes varbits
        reduceBlock lo fuel (oldI - 1) bytes varbits
      else pure bytes

/-- `bbd`, sorted. -/
def bbd : List Nat :=
  let labels := st.fixups.filter fun f => f.kind = .label ∨ f.kind = .fork
  (0 :: st.bytes.length :: labels.map (·.pc)).insertionSort (· ≤ ·)

/-- `while (n_bbd-- > 1)`, over the delimiters from the last one on. -/
def reduceBlocks (fuel : Nat) : List Nat → List UInt8 → Looping (List UInt8)
  | hi :: lo :: bbd, bytes => do
      let bytes ← st.reduceBlock lo fuel (UInt32.ofNat hi - 1) bytes 0
      reduceBlocks fuel (lo :: bbd) bytes
  | _, bytes => pure bytes

/-- The pass: `state.bytes` afterwards. -/
def reduceRef (fuel : Nat) : Looping (List UInt8) := st.reduceBlocks fuel st.bbd.reverse st.bytes

/-- What `stmt_to_code` makes of the state at the end of a vector in this build. -/
def finishVector (fuel : Nat) : Looping (Option Bytecodes) := do
  let bytes ← st.reduceRef fuel
  pure (Waverous.finishVector { st.toGenState with bytes := bytes })

/-- The pass comes to an end, and running the vector `bc` without it agrees with running the one
    with it, in whatever is asked of the two. -/
def ReducesRight (agrees : Bytecodes → Bytecodes → Prop) (bc : Bytecodes) : Prop :=
  ∃ fuel bc', st.finishVector fuel = pure (some bc') ∧ agrees bc bc'

/-! ## The first block -/

theorem looping_pure_bind {α β : Type} {m : Looping α} {f : α → Looping β} {b : β}
    (h : m >>= f = pure b) : ∃ a, m = pure a ∧ f a = pure b := by
  match m with
  | none => exact nomatch h
  | some (.error _) => exact nomatch Option.some.inj h
  | some (.ok a) => exact ⟨a, rfl, h⟩

variable {st}

/-- An unsigned index is never below 0. -/
theorem reduceBlock_first (fuel : Nat) {oldI : UInt32} {bytes bytes' : List UInt8} {varbits : UInt32} :
    st.reduceBlock 0 fuel oldI bytes varbits ≠ pure bytes' := by
  induction fuel generalizing oldI bytes varbits with
  | zero => exact nofun
  | succ fuel ih =>
      intro h
      have hle : UInt32.ofNat 0 ≤ oldI := UInt32.le_iff_toNat_le.mpr (Nat.zero_le _)
      rw [reduceBlock, if_pos hle] at h
      obtain ⟨⟨_, _⟩, -, hnext⟩ := looping_pure_bind h
      exact ih hnext

theorem reduceBlocks_first (fuel : Nat) : ∀ {bbd : List Nat} {bytes bytes' : List UInt8},
    bbd ≠ [] → st.reduceBlocks fuel (bbd ++ [0]) bytes ≠ pure bytes'
  | [], _, _, hne => absurd rfl hne
  | [hi], _, _, _ => by
      intro h
      obtain ⟨_, hblock, -⟩ := looping_pure_bind h
      exact reduceBlock_first fuel hblock
  | hi :: lo :: bbd, _, _, _ => by
      intro h
      obtain ⟨_, -, hblocks⟩ := looping_pure_bind h
      exact reduceBlocks_first fuel (List.cons_ne_nil lo bbd) hblocks

/-- The first block begins at 0. -/
theorem bbd_first : ∃ bbd, bbd ≠ [] ∧ st.bbd = 0 :: bbd := by
  refine ⟨_, ?_, List.insertionSort_cons_of_forall_rel _ fun _ _ => Nat.zero_le _⟩
  rw [← List.length_pos_iff, List.length_insertionSort]
  exact Nat.succ_pos _

theorem reduceRef_endless (fuel : Nat) (bytes : List UInt8) : st.reduceRef fuel ≠ pure bytes := by
  obtain ⟨bbd, hne, hbbd⟩ := st.bbd_first
  rw [reduceRef, hbbd, List.reverse_cons]
  apply reduceBlocks_first
  rwa [Ne, List.reverse_eq_nil_iff]

/-- Generating code with `BYTECODE_REDUCE_REF` does not come to an end, whatever has been emitted. -/
theorem reduced_never_right (agrees : Bytecodes → Bytecodes → Prop) (bc : Bytecodes) :
    ¬ st.ReducesRight agrees bc := by
  rintro ⟨fuel, bc', hfinish, -⟩
  obtain ⟨bytes, hreduce, -⟩ := looping_pure_bind hfinish
  exact reduceRef_endless fuel bytes hreduce

/-! ## What the pass reads instead -/

/-- The maps have an entry for each byte, and the bytes can be counted. -/
structure Mapped (st : ReduceState) : Prop where
  pushmap : st.pushmap.length = st.bytes.length
  trymap : st.trymap.length = st.bytes.length
  size : st.bytes.length < 2 ^ 32
  placed : ∀ f ∈ st.fixups, f.pc < st.bytes.length

theorem bufAt_lt {buf : List UInt8} {i : Nat} (h : i < buf.length) : ∃ c, bufAt buf i = pure c := by
  refine ⟨buf[i], ?_⟩
  rw [bufAt, List.getElem?_eq_getElem h]

theorem bufAt_outside {buf : List UInt8} {i : Nat} (h : buf.length ≤ i) :
    bufAt buf i = throw .read := by
  rw [bufAt, List.getElem?_eq_none h]

theorem visit_ok (h : st.Mapped) {oldI : UInt32} {bytes : List UInt8} (varbits : UInt32)
    (hlen : bytes.length = st.bytes.length) (hi : oldI.toNat < st.bytes.length) :
    ∃ bytes' varbits', st.visit oldI bytes varbits = pure (bytes', varbits') ∧
      bytes'.length = st.bytes.length := by
  obtain ⟨op, hop⟩ := bufAt_lt (h.pushmap ▸ hi)
  obtain ⟨depth, hdepth⟩ := bufAt_lt (h.trymap ▸ hi)
  obtain ⟨b, hb⟩ := bufAt_lt (hlen ▸ hi)
  rw [visit, hop, hdepth, hb]
  simp only [pure_bind]
  split
  · split
    · exact ⟨_, _, rfl, by rw [List.length_set, hlen]⟩
    · exact ⟨_, _, rfl, hlen⟩
  · split
    · exact ⟨_, _, rfl, hlen⟩
    · split
      · exact ⟨_, _, rfl, hlen⟩
      · split
        · exact ⟨_, _, rfl, hlen⟩
        · split
          · exact ⟨_, _, rfl, hlen⟩
          · exact ⟨_, _, rfl, hlen⟩

theorem toNat_ofNat {k : Nat} (h : k < 2 ^ 32) : (UInt32.ofNat k).toNat = k :=
  UInt32.toNat_ofNat_of_lt' h

theorem ofNat_pred {k : Nat} (h : k + 1 < 2 ^ 32) : UInt32.ofNat (k + 1) - 1 = UInt32.ofNat k := by
  rw [← UInt32.toNat_inj, UInt32.toNat_sub_of_le]
  · rw [toNat_ofNat h, toNat_ofNat (by omega)]
    rfl
  · rw [UInt32.le_iff_toNat_le, toNat_ofNat h]
    exact Nat.succ_pos k

/-- A block that does not begin at 0 is visited; in the first one, the index gets to be the
    greatest one after 0. -/
theorem reduceBlock_runs (h : st.Mapped) {lo : Nat} : ∀ {k fuel : Nat} {bytes : List UInt8}
    (varbits : UInt32), lo ≤ k → k ≤ st.bytes.length → k - lo < fuel →
    bytes.length = st.bytes.length →
    if lo = 0 then st.reduceBlock lo fuel (UInt32.ofNat k - 1) bytes varbits = throw .read
    else ∃ bytes', st.reduceBlock lo fuel (UInt32.ofNat k - 1) bytes varbits = pure bytes' ∧
      bytes'.length = st.bytes.length
  | k, 0, _, _, _, _, hfuel, _ => absurd hfuel (Nat.not_lt_zero _)
  | k, fuel + 1, bytes, varbits, hlo, hk, hfuel, hlen => by
      have hsize := h.size
      have hloNat : (UInt32.ofNat lo).toNat = lo := toNat_ofNat (by omega)
      by_cases heq : k = lo
      · subst heq
        by_cases hzero : k = 0
        · subst hzero
          rw [if_pos rfl, reduceBlock, if_pos (by decide), visit, bufAt_outside]
          · rfl
          · rw [h.pushmap]
            exact Nat.le_of_lt_succ hsize
        · rw [if_neg hzero, reduceBlock, if_neg]
          · exact ⟨bytes, rfl, hlen⟩
          · obtain ⟨k, rfl⟩ := Nat.exists_eq_succ_of_ne_zero hzero
            rw [ofNat_pred (by omega), UInt32.le_iff_toNat_le, hloNat,
              toNat_ofNat (by omega)]
            omega
      · obtain ⟨k, rfl⟩ : ∃ j, k = j + 1 := ⟨k - 1, by omega⟩
        have hkNat : (UInt32.ofNat k).toNat = k := toNat_ofNat (by omega)
        obtain ⟨bytes', varbits', hvisit, hlen'⟩ :=
          visit_ok h varbits hlen (show (UInt32.ofNat k).toNat < st.bytes.length by omega)
        have hle : UInt32.ofNat lo ≤ UInt32.ofNat k := by
          rw [UInt32.le_iff_toNat_le, hloNat, hkNat]
          omega
        have hnext := reduceBlock_runs h varbits' (show lo ≤ k by omega) (by omega)
          (show k - lo < fuel by omega) hlen'
        rw [ofNat_pred (by omega), reduceBlock, if_pos hle, hvisit]
        exact hnext

theorem reduceBlocks_run (h : st.Mapped) {fuel : Nat} (hfuel : st.bytes.length < fuel) :
    ∀ {bbd : List Nat} {bytes : List UInt8}, bbd ≠ [] → (bbd ++ [0]).Pairwise (· ≥ ·) →
    (∀ i ∈ bbd, i ≤ st.bytes.length) → bytes.length = st.bytes.length →
    st.reduceBlocks fuel (bbd ++ [0]) bytes = throw .read
  | [], _, hne, _, _, _ => absurd rfl hne
  | [hi], bytes, _, _, hbbd, hlen => by
      have hhi := hbbd hi List.mem_cons_self
      have hblock := reduceBlock_runs h 0 (Nat.zero_le hi) hhi (show hi - 0 < fuel by omega) hlen
      rw [if_pos rfl] at hblock
      show st.reduceBlock 0 fuel _ _ _ >>= _ = _
      rw [hblock]
      rfl
  | hi :: lo :: bbd, bytes, _, hsorted, hbbd, hlen => by
      have hhi := hbbd hi List.mem_cons_self
      have hrest := fun i hi => hbbd i (List.mem_cons_of_mem _ hi)
      obtain ⟨hall, hsorted'⟩ := List.pairwise_cons.mp hsorted
      have hlo : lo ≤ hi := hall lo List.mem_cons_self
      have hblock := reduceBlock_runs h 0 hlo hhi (show hi - lo < fuel by omega) hlen
      show st.reduceBlock lo fuel _ _ _ >>= _ = _
      split at hblock
      next =>
        rw [hblock]
        rfl
      next =>
        obtain ⟨bytes', hblock, hlen'⟩ := hblock
        rw [hblock]
        exact reduceBlocks_run h hfuel (List.cons_ne_nil lo bbd) hsorted' hrest hlen'

/-- The pass reads the map at an index that it does not have. -/
theorem reduceRef_reads_outside (h : st.Mapped) {fuel : Nat} (hfuel : st.bytes.length < fuel) :
    st.reduceRef fuel = throw .read := by
  obtain ⟨bbd, hne, hbbd⟩ := st.bbd_first
  have hsorted : st.bbd.Pairwise (· ≤ ·) := List.pairwise_insertionSort _ _
  have hbounded : ∀ i ∈ st.bbd, i ≤ st.bytes.length := by
    intro i hi
    rw [ReduceState.bbd, List.mem_insertionSort, List.mem_cons, List.mem_cons] at hi
    rcases hi with rfl | rfl | hi
    · exact Nat.zero_le _
    · exact Nat.le_refl _
    · obtain ⟨f, hf, rfl⟩ := List.mem_map.mp hi
      exact Nat.le_of_lt (h.placed f (List.mem_filter.mp hf).1)
  rw [hbbd] at hsorted hbounded
  rw [reduceRef, hbbd, List.reverse_cons]
  apply reduceBlocks_run h hfuel
  · rwa [Ne, List.reverse_eq_nil_iff]
  · rw [← List.reverse_cons]
    exact List.pairwise_reverse.mpr hsorted
  · intro i hi
    exact hbounded i (List.mem_cons_of_mem _ (List.mem_reverse.mp hi))
  · rfl

/-- `x = 1; return x;`, where `x` is the first variable of the program's own. -/
def setAndReturn : ReduceState :=
  { initState initGstate with
    bytes := [157, Opcode.put.byte + 18, 144, Opcode.push.byte + 18, 141, opDone]
    maxStack := 1
    pushmap := [0, Opcode.put.byte, 0, Opcode.push.byte, opDone, opDone]
    trymap := [0, 0, 0, 0, 0, 0] }

/-- Not even if nothing is asked of the two vectors. -/
theorem setAndReturn_not_right : setAndReturn.reduceRef 7 = throw .read ∧
    ∃ bc, Waverous.finishVector setAndReturn.toGenState = some bc ∧
      ¬ setAndReturn.ReducesRight (fun _ _ => True) bc := by
  refine ⟨reduceRef_reads_outside ⟨rfl, rfl, by decide, fun _ hf => absurd hf List.not_mem_nil⟩
    (by decide), _, rfl, ?_⟩
  rintro ⟨fuel, bc', hfinish, -⟩
  obtain ⟨bytes, hreduce, -⟩ := looping_pure_bind hfinish
  exact reduceRef_endless fuel bytes hreduce

end ReduceState

end Waverous
