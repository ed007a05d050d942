import Waverous.TargetRuns

/-! # Scattering assignments — `execute.c`

    `EOP_SCATTER` goes through its targets with a counter and an offset into the list, and remembers
    where the defaults begin; on the tree, each target takes a value from what is left of the list. -/

namespace Waverous

open Machines
open Blocks (Fault)

variable {W : Type}

/-! ## Patterns -/

/-- How many targets are optional. -/
def Scatter.nopt : Scatter → Nat
  | .nil => 0
  | .cons kind _ _ next => next.nopt + if kind = .optional then 1 else 0

/-- The target for the rest is the one at the place `rest`. -/
def Scatter.RestAt (rest : Nat) : Nat → Scatter → Prop
  | _, .nil => True
  | i, .cons kind _ _ next => (i = rest ↔ kind = .rest) ∧ next.RestAt rest (i + 1)

/-- Where the defaults begin that are needed with so many values for optional targets, if not at the
    end. -/
def Scatter.entry : Scatter → List Nat → Nat → Nat → Nat
  | .cons .optional _ (some _) _, place :: _, 0, _ => place
  | .cons .optional _ (some _) next, _ :: places, avail + 1, done => next.entry places avail done
  | .cons .optional _ none next, places, avail, done => next.entry places (avail - 1) done
  | .cons .required _ _ next, places, avail, done | .cons .rest _ _ next, places, avail, done =>
      next.entry places avail done
  | .cons .optional _ (some _) _, [], _, done | .nil, _, _, done => done

theorem hasRest_cons (kind : ScatterKind) (id : Nat) (default : Option Expr) (next : Scatter) :
    (Scatter.cons kind id default next).hasRest = true ↔ kind = .rest ∨ next.hasRest = true := by
  rw [Scatter.hasRest, Bool.or_eq_true, decide_eq_true_iff]

theorem rests_zero : ∀ {sc : Scatter}, sc.rests = 0 → sc.hasRest = false
  | .nil, _ => rfl
  | .cons kind _ _ next, h => by
      rw [Scatter.rests] at h
      have hnext : next.hasRest = false := rests_zero (by omega)
      have hkind : kind ≠ .rest := by
        rintro rfl
        simp at h
      rw [Scatter.hasRest, hnext, decide_eq_false hkind]
      rfl

theorem rest_none : ∀ {sc : Scatter}, sc.hasRest = false → ∀ k r, sc.rest k r = r
  | .nil, _, _, _ => rfl
  | .cons kind _ _ next, h, k, r => by
      have hnot := (not_congr (hasRest_cons kind _ _ next)).mp (by rw [h]; exact Bool.false_ne_true)
      rw [not_or, Bool.not_eq_true] at hnot
      rw [Scatter.rest, if_neg hnot.1, rest_none hnot.2]

/-- A target for the rest has a place. -/
theorem rest_some : ∀ {sc : Scatter} {k : Nat} {r : Option Nat}, sc.hasRest = true →
    ∃ place, sc.rest k r = some place ∧ k < place ∧ place ≤ k + sc.nargs
  | .cons kind _ _ next, k, r, h => by
      rw [Scatter.rest, Scatter.nargs]
      by_cases hnext : next.hasRest = true
      · obtain ⟨place, hplace, hlt, hle⟩ :=
          rest_some (k := k + 1) (r := if kind = .rest then some (k + 1) else r) hnext
        exact ⟨place, hplace, by omega, by omega⟩
      · have hkind := ((hasRest_cons kind _ _ next).mp h).resolve_right hnext
        rw [rest_none (Bool.eq_false_of_not_eq_true hnext), if_pos hkind]
        exact ⟨k + 1, rfl, by omega, by omega⟩

theorem restAt_none : ∀ {sc : Scatter} {rest i : Nat}, sc.hasRest = false → rest < i ∨ i + sc.nargs ≤ rest →
    sc.RestAt rest i
  | .nil, _, _, _, _ => trivial
  | .cons kind _ _ next, rest, i, h, hout => by
      have hnot := (not_congr (hasRest_cons kind _ _ next)).mp (by rw [h]; exact Bool.false_ne_true)
      rw [not_or, Bool.not_eq_true] at hnot
      rw [Scatter.nargs] at hout
      exact ⟨⟨fun heq => by omega, fun hkind => absurd hkind hnot.1⟩, restAt_none hnot.2 (by omega)⟩

/-- The operand `rest` is the place of the target for the rest. -/
theorem restAt_rest : ∀ {sc : Scatter} {k far : Nat}, sc.rests ≤ 1 → k + sc.nargs < far →
    sc.RestAt ((sc.rest k none).getD far) (k + 1)
  | .nil, _, _, _, _ => trivial
  | .cons kind _ _ next, k, far, hrests, hfar => by
      rw [Scatter.rests] at hrests
      rw [Scatter.nargs] at hfar
      rw [Scatter.rest]
      by_cases hkind : kind = .rest
      · rw [if_pos hkind] at hrests ⊢
        have hnext : next.hasRest = false := rests_zero (by omega)
        rw [rest_none hnext]
        exact ⟨⟨fun _ => hkind, fun _ => rfl⟩, restAt_none hnext (.inl (Nat.lt_succ_self (k + 1)))⟩
      · rw [if_neg hkind] at hrests ⊢
        refine ⟨⟨fun heq => ?_, fun h => absurd h hkind⟩, restAt_rest hrests (by omega)⟩
        cases hhas : next.hasRest with
        | false =>
            rw [rest_none hhas, Option.getD_none] at heq
            omega
        | true =>
            obtain ⟨place, hplace, hlt, -⟩ := rest_some (k := k + 1) (r := none) hhas
            rw [hplace, Option.getD_some] at heq
            omega

/-- Behind the target for the rest there is no other. -/
theorem restAt_behind : ∀ {sc : Scatter} {rest i : Nat}, sc.RestAt rest i → rest < i → sc.hasRest = false
  | .nil, _, _, _, _ => rfl
  | .cons kind _ _ next, rest, i, ⟨hhere, hnext⟩, hlt => by
      have hkind : kind ≠ .rest := fun h => by
        have := hhere.mpr h
        omega
      rw [Scatter.hasRest, restAt_behind hnext (by omega), decide_eq_false hkind]
      rfl

/-- There is a target for the rest if the operand `rest` is not behind all targets. -/
theorem haveRest_eq (sc : Scatter) :
    decide (¬ (sc.rest 0 none).getD (sc.nargs + 1) > sc.nargs) = sc.hasRest := by
  cases hhas : sc.hasRest with
  | false =>
      rw [rest_none hhas, Option.getD_none]
      exact decide_eq_false (by omega)
  | true =>
      obtain ⟨place, hplace, -, hle⟩ := rest_some (k := 0) (r := none) hhas
      rw [hplace, Option.getD_some]
      exact decide_eq_true (by omega)

/-! ## The loop -/

/-- What is left of the list, for these targets: there is a value for each of them that is to have
    one. -/
structure Left (list rest : List Var) (sc : Scatter) (place offset : Int) (avail : Nat) (values : List Var) :
    Prop where
  start : 1 ≤ place + offset
  tail : values = list.drop (place + offset - 1).toNat
  count : values.length + (if sc.hasRest then 0 else rest.length) = sc.nreq + avail
  full : rest ≠ [] → avail = sc.nopt + rest.length

section

variable {list rest : List Var} {next : Scatter} {place offset : Int} {avail id : Nat} {values : List Var}
  {default : Option Expr}

theorem listElement_drop (hstart : 1 ≤ place + offset) {v : Var}
    (h : list.drop (place + offset - 1).toNat = v :: values) :
    Ranges.listElement list (place + offset) = .ok v := by
  have hget : list[(place + offset - 1).toNat]? = some v := by
    have := congrArg (·[0]?) h
    rw [List.getElem?_drop] at this
    exact this
  exact Blocks.readAt_ok hget (by omega)

theorem drop_next {k : Nat} {v : Var} {l values : List Var} (h : v :: values = l.drop k) : values = l.drop (k + 1) := by
  rw [← List.drop_drop, ← h]
  rfl

/-- A value is taken, and there is one. -/
theorem Left.take {sc : Scatter} (next : Scatter) (avail' : Nat) (h : Left list rest sc place offset avail values)
    (hhas : next.hasRest = sc.hasRest) (hcount : next.nreq + avail' + 1 = sc.nreq + avail)
    (hopt : avail' + sc.nopt = avail + next.nopt) :
    ∃ v values', values = v :: values' ∧ Ranges.listElement list (place + offset) = .ok v ∧
      Left list rest next (place + 1) offset avail' values' := by
  have hlen := h.count
  have hfull : 0 < rest.length → avail = sc.nopt + rest.length := fun hrest => h.full (List.ne_nil_of_length_pos hrest)
  cases values with
  | nil =>
      exfalso
      rw [List.length_nil] at hlen
      split at hlen <;> omega
  | cons v values' =>
      rw [List.length_cons] at hlen
      refine ⟨v, values', rfl, listElement_drop h.start h.tail.symm, ?_, ?_, ?_, fun hrest => ?_⟩
      · have := h.start
        omega
      · have hstart := h.start
        rw [show (place + 1 + offset - 1).toNat = (place + offset - 1).toNat + 1 by omega]
        exact drop_next h.tail
      · rw [hhas]
        omega
      · have := h.full hrest
        omega

theorem Left.skipped (h : Left list rest (.cons .optional id default next) place offset 0 values) :
    Left list rest next (place + 1) (offset - 1) 0 values := by
  obtain ⟨hstart, hvalues, hcount, hfull⟩ := h
  have hnopt : (Scatter.cons .optional id default next).nopt = next.nopt + 1 := rfl
  rw [hnopt] at hfull
  refine ⟨by omega, ?_, hcount, fun hrest => ?_⟩
  · rw [show (place + 1 + (offset - 1) - 1).toNat = (place + offset - 1).toNat by omega]
    exact hvalues
  · have := hfull hrest
    omega

theorem Left.atRest (h : Left list rest (.cons .rest id default next) place offset avail values)
    (hnext : next.hasRest = false) :
    Left list rest next (place + 1) (offset + (rest.length - 1)) avail (values.drop rest.length) := by
  obtain ⟨hstart, hvalues, hcount, hfull⟩ := h
  have hhas : (Scatter.cons .rest id default next).hasRest = true := rfl
  have hnreq : (Scatter.cons .rest id default next).nreq = next.nreq := rfl
  have hnopt : (Scatter.cons .rest id default next).nopt = next.nopt := rfl
  rw [hhas, if_pos rfl, hnreq] at hcount
  rw [hnopt] at hfull
  refine ⟨by omega, ?_, ?_, hfull⟩
  · rw [hvalues, List.drop_drop]
    congr 1
    omega
  · rw [hnext, if_neg Bool.false_ne_true, List.length_drop]
    by_cases hrest : rest = []
    · rw [hrest, List.length_nil]
      omega
    · have := hfull hrest
      omega

end

section

variable {bc : Bytecodes} {list rtEnv rts restList : List Var} {rest i label id p p1 p2 w done : Nat} {offset nrest : Int}
  {avail : Nat}

/-- One target, with its operands read. -/
theorem scatterTarget_read (hslot : varRefAt bc id p p1) (hlabel : labelAt bc label p1 p2) (noptAvail : Int) :
    scatterTarget bc list rest nrest ⟨i, offset, noptAvail, w, ⟨p, rts, rtEnv⟩⟩ =
      if (i : Int) = rest then
        match Ranges.sublist list i (i + nrest - 1) with
        | .ok l => some ⟨i + 1, offset + (nrest - 1), noptAvail, w, ⟨p2, rts, rtEnv.set id (.list l)⟩⟩
        | .error _ => none
      else if label = 0 then
        match Ranges.listElement list (i + offset) with
        | .ok v => some ⟨i + 1, offset, noptAvail, w, ⟨p2, rts, rtEnv.set id v⟩⟩
        | .error _ => none
      else if noptAvail > 0 then
        match Ranges.listElement list (i + offset) with
        | .ok v => some ⟨i + 1, offset, noptAvail - 1, w, ⟨p2, rts, rtEnv.set id v⟩⟩
        | .error _ => none
      else some ⟨i + 1, offset - 1, noptAvail, if w = 0 ∧ label ≠ 1 then label else w, ⟨p2, rts, rtEnv⟩⟩ := by
  rw [scatterTarget, readOperand_at hslot]
  show ((readOperand bc bc.numbytesLabel ⟨p1, rts, rtEnv⟩).bind _ : Option ScatterLoop) = _
  rw [readOperand_at hlabel]
  rfl

/-- The loop gives the variables what the tree says, and finds where the defaults begin. -/
theorem scatterTargets_runs : ∀ {sc : Scatter} {places : List Nat} {i p p' avail w : Nat} {offset : Int}
    {values rtEnv : List Var}, targetsCode bc sc places p p' → (∀ place ∈ places.take sc.defaults, 1 < place) →
    sc.RestAt rest i →
    (sc.hasRest = true → Ranges.sublist list rest (rest + nrest - 1) = .ok restList) →
    nrest = restList.length → Left list restList sc i offset avail values →
    ∃ st', scatterTargets bc list rest nrest sc.nargs ⟨i, offset, avail, w, ⟨p, rts, rtEnv⟩⟩ = some st' ∧
      st'.frame = ⟨p', rts, assignTargets restList sc avail values rtEnv⟩ ∧
      (if st'.where = 0 then done else st'.where) = if w = 0 then sc.entry places avail done else w
  | .nil, _, _, _, _, _, w, _, _, _, rfl, _, _, _, _, _ => ⟨_, rfl, rfl, rfl⟩
  | .cons kind id default next, places, i, p, p', avail, w, offset, values, rtEnv, hcode, hplaces, ⟨hhere, hnext⟩,
      hsub, hnrest, hleft => by
      have hnargs : (Scatter.cons kind id default next).nargs = next.nargs + 1 := rfl
      have hsub' : next.hasRest = true → Ranges.sublist list rest (rest + nrest - 1) = .ok restList :=
        fun h => hsub ((hasRest_cons kind id default next).mpr (.inr h))
      have hplace : ((i : Int) = rest) = (kind = .rest) := by
        rw [Int.natCast_inj]
        exact propext hhere
      rw [hnargs, scatterTargets]
      cases kind with
      | required =>
          -- a label of 0 is for a target that must have a value
          obtain ⟨p1, hslot, p2, hlabel, _, htargets, rfl⟩ := hcode
          obtain ⟨v, values', rfl, hv, hleft'⟩ := hleft.take next avail rfl
            (by rw [Scatter.nreq, if_pos rfl]; omega) rfl
          rw [scatterTarget_read hslot hlabel, if_neg (by rw [hplace]; nofun), if_pos rfl, hv]
          exact scatterTargets_runs htargets hplaces hnext hsub' hnrest hleft'
      | rest =>
          obtain ⟨p1, hslot, p2, hlabel, _, htargets, rfl⟩ := hcode
          -- the sublist is one value for the loop, and `offset` makes up for the others
          have hi : i = rest := hhere.mpr rfl
          have hl := hsub rfl
          rw [← hi] at hl
          rw [scatterTarget_read hslot hlabel, if_pos (by rw [hplace]), hl]
          have hleft' := hleft.atRest (restAt_behind hnext (by omega))
          rw [← hnrest] at hleft'
          exact scatterTargets_runs htargets hplaces hnext hsub' hnrest hleft'
      | optional =>
          have hnot : ¬ (i : Int) = rest := by
            rw [hplace]
            nofun
          have hnreq : (Scatter.cons .optional id default next).nreq = next.nreq := rfl
          have hnopt : (Scatter.cons .optional id default next).nopt = next.nopt + 1 := rfl
          cases avail with
          | zero =>
              -- no value is left for optional targets: `offset` goes back by one, and the first default is the entry
              have hleft' := hleft.skipped
              cases default with
              | none =>
                  obtain ⟨p1, hslot, p2, hlabel, _, htargets, rfl⟩ := hcode
                  rw [scatterTarget_read hslot hlabel, if_neg hnot, if_neg Nat.one_ne_zero, if_neg (by omega),
                    if_neg (by simp)]
                  exact scatterTargets_runs htargets hplaces hnext hsub' hnrest hleft'
              | some e =>
                  cases places with
                  | nil => exact hcode.elim
                  | cons place places =>
                      obtain ⟨p1, hslot, p2, hlabel, _, htargets, rfl⟩ := hcode
                      have hlarge : 1 < place := hplaces place List.mem_cons_self
                      rw [scatterTarget_read hslot hlabel, if_neg hnot, if_neg (by omega), if_neg (by omega)]
                      obtain ⟨st', hrun, hframe, hentry⟩ := scatterTargets_runs
                        (w := if w = 0 ∧ place ≠ 1 then place else w) htargets
                        (fun q hq => hplaces q (List.mem_cons_of_mem place hq)) hnext hsub' hnrest hleft'
                      refine ⟨st', hrun, hframe, ?_⟩
                      rw [hentry]
                      by_cases hw : w = 0
                      · rw [if_pos (show w = 0 ∧ place ≠ 1 from ⟨hw, by omega⟩),
                          if_neg (show ¬ place = 0 by omega), if_pos hw]
                        rfl
                      · rw [if_neg (show ¬ (w = 0 ∧ place ≠ 1) from fun h => hw h.1), if_neg hw, if_neg hw]
          | succ avail =>
              obtain ⟨v, values', rfl, hv, hleft'⟩ := hleft.take next avail rfl (by omega) (by omega)
              have hcount : ((avail + 1 : Nat) : Int) - 1 = avail := by omega
              cases default with
              | none =>
                  obtain ⟨p1, hslot, p2, hlabel, _, htargets, rfl⟩ := hcode
                  rw [scatterTarget_read hslot hlabel, if_neg hnot, if_neg Nat.one_ne_zero, if_pos (by omega), hv,
                    hcount]
                  exact scatterTargets_runs htargets hplaces hnext hsub' hnrest hleft'
              | some e =>
                  cases places with
                  | nil => exact hcode.elim
                  | cons place places =>
                      obtain ⟨p1, hslot, p2, hlabel, _, htargets, rfl⟩ := hcode
                      have hlarge : 1 < place := hplaces place List.mem_cons_self
                      rw [scatterTarget_read hslot hlabel, if_neg hnot, if_neg (by omega), if_pos (by omega), hv,
                        hcount]
                      exact scatterTargets_runs htargets
                        (fun q hq => hplaces q (List.mem_cons_of_mem place hq)) hnext hsub' hnrest hleft'

/-- What is left undefined for the rest ends the loop. -/
theorem scatterTargets_faults {f : Fault} : ∀ {sc : Scatter} {places : List Nat} {i p p' w : Nat}
    {offset noptAvail : Int} {rtEnv : List Var}, targetsCode bc sc places p p' → sc.RestAt rest i →
    sc.hasRest = true → Ranges.sublist list rest (rest + nrest - 1) = .error f →
    scatterTargets bc list rest nrest sc.nargs ⟨i, offset, noptAvail, w, ⟨p, rts, rtEnv⟩⟩ = none
  | .cons kind id default next, places, i, p, p', w, offset, noptAvail, rtEnv, hcode, ⟨hhere, hnext⟩, hhas, hsub => by
      obtain ⟨label, places', p1, p2, hslot, hlabel, htargets⟩ : ∃ label places' p1 p2, varRefAt bc id p p1 ∧
          labelAt bc label p1 p2 ∧ targetsCode bc next places' p2 p' := by
        cases kind with
        | required | rest =>
            obtain ⟨p1, hslot, p2, hlabel, _, htargets, rfl⟩ := hcode
            exact ⟨_, _, p1, p2, hslot, hlabel, htargets⟩
        | optional =>
            cases default with
            | none =>
                obtain ⟨p1, hslot, p2, hlabel, _, htargets, rfl⟩ := hcode
                exact ⟨_, _, p1, p2, hslot, hlabel, htargets⟩
            | some e =>
                cases places with
                | nil => exact hcode.elim
                | cons place places =>
                    obtain ⟨p1, hslot, p2, hlabel, _, htargets, rfl⟩ := hcode
                    exact ⟨_, _, p1, p2, hslot, hlabel, htargets⟩
      rw [show (Scatter.cons kind id default next).nargs = next.nargs + 1 from rfl, scatterTargets,
        scatterTarget_read hslot hlabel]
      by_cases hi : (i : Int) = rest
      · -- the target of the rest: its sublist is undefined
        rw [if_pos hi, hi, hsub]
        rfl
      · have hkind : kind ≠ .rest := fun h => hi (congrArg Nat.cast (hhere.mpr h))
        have hrest : next.hasRest = true := ((hasRest_cons kind id default next).mp hhas).resolve_left hkind
        rw [if_neg hi]
        split
        · split
          · exact scatterTargets_faults htargets hnext hrest hsub
          · rfl
        · split
          · split
            · exact scatterTargets_faults htargets hnext hrest hsub
            · rfl
          · exact scatterTargets_faults htargets hnext hrest hsub

/-- The operands of the targets have the same size each. -/
theorem targetsCode_end : ∀ {sc : Scatter} {places : List Nat} {p p' : Nat}, targetsCode bc sc places p p' →
    p' = p + sc.nargs * (bc.numbytesVarName + bc.numbytesLabel)
  | .nil, _, p, _, rfl => by
      rw [Scatter.nargs, Nat.zero_mul, Nat.add_zero]
  | .cons kind id default next, places, p, p', hcode => by
      have hnext : ∀ {label : Nat} {places' : List Nat},
          Stretch.all [varRefAt bc id, labelAt bc label, targetsCode bc next places'] p p' →
          p' = p + (next.nargs + 1) * (bc.numbytesVarName + bc.numbytesLabel) := by
        rintro label places' ⟨_, ⟨-, rfl⟩, _, ⟨-, rfl⟩, _, htargets, rfl⟩
        rw [targetsCode_end htargets, Nat.succ_mul]
        omega
      cases kind with
      | required | rest => exact hnext hcode
      | optional =>
          cases default with
          | none => exact hnext hcode
          | some e =>
              cases places with
              | nil => exact hcode.elim
              | cons place places => exact hnext hcode

/-- The defaults are behind the place where their code begins. -/
theorem places_behind {lits : List Var} {saved depth : Int} : ∀ (sc : Scatter) {places : List Nat} {pc pc' : Nat},
    sc.stands bc lits places saved depth pc pc' → ∀ place ∈ places.take sc.defaults, pc ≤ place
  | .nil, _, _, _, _, _, hplace => by
      rw [Scatter.defaults, List.take_zero] at hplace
      cases hplace
  | .cons .optional _ (some e) next, places, pc, pc', ⟨_, ⟨hhead, rfl⟩, p1, he, p2, hput, p3, hpop, _, hnext, rfl⟩,
      place, hplace => by
      cases places with
      | nil => cases hhead
      | cons place0 places =>
          rw [Scatter.defaults, List.take_succ_cons] at hplace
          rcases List.mem_cons.mp hplace with rfl | hplace
          · exact Nat.le_of_eq (Option.some.inj hhead).symm
          · have := places_behind next hnext place hplace
            have := (e.forward saved depth) _ _ he
            have := forward_varOp _ _ hput
            have := forward_byte _ _ hpop
            omega
  | .cons .optional _ none next, _, _, _, h, place, hplace => places_behind next h place hplace
  | .cons .required _ _ next, _, _, _, h, place, hplace => places_behind next h place hplace
  | .cons .rest _ _ next, _, _, _, h, place, hplace => places_behind next h place hplace

end

/-! ## `EOP_SCATTER` -/

theorem sublist_length {list l : List Var} {lower upper : Int} (hle : lower ≤ upper + 1)
    (h : Ranges.sublist list lower upper = .ok l) : (l.length : Int) = upper - lower + 1 := by
  unfold Ranges.sublist at h
  split at h
  · cases h
    show (0 : Int) = _
    omega
  · obtain ⟨_, -, h⟩ := Blocks.bind_eq_ok h
    obtain ⟨_, -, h⟩ := Blocks.bind_eq_ok h
    obtain ⟨b, hb, h⟩ := Blocks.bind_eq_ok h
    obtain ⟨b', hb', h⟩ := Blocks.bind_eq_ok h
    cases h
    rw [(Blocks.copyLoop_length hb').2.1, newList_data hb, List.length_nil, Ranges.rounds]
    omega

/-- With one target for the rest at most, each target is of one kind. -/
theorem nargs_eq : ∀ {sc : Scatter}, sc.rests ≤ 1 → sc.nargs = sc.nreq + sc.nopt + if sc.hasRest then 1 else 0
  | .nil, _ => rfl
  | .cons kind _ _ next, h => by
      rw [Scatter.rests] at h
      cases kind with
      | required | optional =>
          have hnext : next.nargs = next.nreq + next.nopt + if next.hasRest then 1 else 0 := nargs_eq (by omega)
          show next.nargs + 1 = next.nreq + _ + (next.nopt + _) + (if next.hasRest then 1 else 0)
          simp
          omega
      | rest =>
          have hnext : next.nargs = next.nreq + next.nopt + if next.hasRest then 1 else 0 := nargs_eq (by omega)
          rw [rests_zero (by simp at h; omega)] at hnext
          show next.nargs + 1 = next.nreq + _ + (next.nopt + _) + 1
          simp at hnext ⊢
          omega

section

variable {sc : Scatter} {l rest : List Var}

/-- The loop begins with the whole list. -/
theorem left_whole (hrests : sc.rests ≤ 1) (hreq : sc.nreq ≤ l.length)
    (hrest : scatterRest sc l = .ok rest) : Left l rest sc 1 0 (l.length - sc.nreq) l := by
  have hargs := nargs_eq hrests
  unfold scatterRest at hrest
  refine ⟨by decide, rfl, ?_, fun hne => ?_⟩
  · split at hrest
    · next hmany =>
        rw [if_pos hmany.1]
        omega
    · cases hrest
      rw [List.length_nil]
      split <;> omega
  · split at hrest
    · next hmany =>
        have hlen := sublist_length (by omega) hrest
        rw [if_pos hmany.1] at hargs
        omega
    · cases hrest
      exact absurd rfl hne

/-- How many values the loop gives to the rest. -/
def restCount (sc : Scatter) (l : List Var) : Int :=
  if sc.hasRest = true ∧ (l.length : Int) ≥ sc.nargs then l.length - sc.nargs + 1 else 0

/-- The rest, as the loop takes it. -/
theorem scatterRest_loop (hhas : sc.hasRest = true) : Ranges.sublist l ((sc.rest 0 none).getD (sc.nargs + 1) : Nat)
    ((sc.rest 0 none).getD (sc.nargs + 1) + restCount sc l - 1) = scatterRest sc l := by
  obtain ⟨place, hplace, -, -⟩ := rest_some (k := 0) (r := none) hhas
  unfold scatterRest restCount
  rw [hplace, Option.getD_some, Option.getD_some]
  by_cases hmany : (l.length : Int) ≥ sc.nargs
  · rw [if_pos ⟨hhas, hmany⟩, if_pos ⟨hhas, by omega⟩]
    congr 1
    omega
  · rw [if_neg (fun h => hmany h.2), if_neg (fun h => hmany (by have := h.2; omega)), Ranges.sublist, if_pos (by omega)]

theorem restCount_eq (h : scatterRest sc l = .ok rest) : restCount sc l = rest.length := by
  unfold scatterRest at h
  unfold restCount
  split at h
  · next hmany =>
      have hlen := sublist_length (by omega) h
      rw [if_pos ⟨hmany.1, by omega⟩]
      omega
  · next hfew =>
      cases h
      rw [if_neg (fun hmany => hfew ⟨hmany.1, by have := hmany.2; omega⟩)]
      rfl

theorem nreq_le_of_none {haveRest : Bool} (h : scatterError sc.nargs sc.nreq haveRest (.list l) = none) :
    sc.nreq ≤ l.length := by
  by_contra hlt
  rw [scatterError, if_pos (.inl (by omega))] at h
  cases h

section

variable {bc : Bytecodes} {places rts rtEnv : List Var} {p p1 p2 done : Nat} {places : List Nat}

theorem scatterJump_eq {target w : Nat} (hlabel : labelAt bc target p1 p2) :
    scatterJump bc w ⟨p1, rts, rtEnv⟩ = some ⟨if w = 0 then target else w, rts, rtEnv⟩ := by
  rw [scatterJump, readOperand_at hlabel]
  rfl

/-- The targets have values, and the defaults are next. -/
theorem scatterList_ok (hcode : targetsCode bc sc places p p1) (hlabel : labelAt bc done p1 p2)
    (hplaces : ∀ place ∈ places.take sc.defaults, 1 < place) (hrests : sc.rests ≤ 1) (hreq : sc.nreq ≤ l.length)
    (hrest : scatterRest sc l = .ok rest) :
    scatterList bc sc.nargs sc.nreq ((sc.rest 0 none).getD (sc.nargs + 1)) sc.hasRest l ⟨p, rts, rtEnv⟩ =
      some (.opcode ⟨sc.entry places (l.length - sc.nreq) done, rts,
        assignTargets rest sc (l.length - sc.nreq) l rtEnv⟩) := by
  have havail : ((l.length - sc.nreq : Nat) : Int) = l.length - sc.nreq := by omega
  have hrestAt : sc.RestAt ((sc.rest 0 none).getD (sc.nargs + 1)) 1 := restAt_rest (k := 0) hrests (by omega)
  obtain ⟨st', hrun, hframe, hentry⟩ : ∃ st', scatterTargets bc l ((sc.rest 0 none).getD (sc.nargs + 1) : Nat)
      (restCount sc l) sc.nargs ⟨(1 : Nat), 0, (l.length - sc.nreq : Nat), 0, ⟨p, rts, rtEnv⟩⟩ = some st' ∧
      st'.frame = ⟨p1, rts, assignTargets rest sc (l.length - sc.nreq) l rtEnv⟩ ∧
      (if st'.where = 0 then done else st'.where) =
        if 0 = 0 then sc.entry places (l.length - sc.nreq) done else 0 :=
    scatterTargets_runs hcode hplaces hrestAt (fun hhas => (scatterRest_loop hhas).trans hrest)
      (restCount_eq hrest) (left_whole hrests hreq hrest)
  rw [havail] at hrun
  show ((scatterTargets bc l _ (restCount sc l) sc.nargs ⟨1, 0, l.length - sc.nreq, 0, ⟨p, rts, rtEnv⟩⟩).bind _ :
    Option Next) = _
  rw [show (1 : Int) = ((1 : Nat) : Int) from rfl, hrun]
  show ((scatterJump bc st'.where st'.frame).bind _ : Option Next) = _
  rw [hframe, scatterJump_eq hlabel, hentry]
  rfl

theorem scatterList_fault {f : Fault} (hcode : targetsCode bc sc places p p1) (hrests : sc.rests ≤ 1)
    (hrest : scatterRest sc l = .error f) :
    scatterList bc sc.nargs sc.nreq ((sc.rest 0 none).getD (sc.nargs + 1)) sc.hasRest l ⟨p, rts, rtEnv⟩ = none := by
  have hhas : sc.hasRest = true := by
    by_contra hnot
    rw [scatterRest, if_neg fun h => hnot h.1] at hrest
    cases hrest
  have hrestAt : sc.RestAt ((sc.rest 0 none).getD (sc.nargs + 1)) 1 := restAt_rest (k := 0) hrests (by omega)
  show ((scatterTargets bc l _ (restCount sc l) sc.nargs ⟨1, 0, l.length - sc.nreq, 0, ⟨p, rts, rtEnv⟩⟩).bind _ :
    Option Next) = _
  rw [show (1 : Int) = ((1 : Nat) : Int) from rfl,
    scatterTargets_faults hcode hrestAt hhas ((scatterRest_loop hhas).trans hrest)]
  rfl

end

/-- The operands of `EOP_SCATTER` are read. -/
theorem eopScatter_read (debug : Bool) {bc : Bytecodes} {places : List Nat} {done pc pc' : Nat} (hargs : sc.nargs < 255)
    (hrests : sc.rests ≤ 1) (h : scatterCode bc sc places done pc pc') :
    ∃ p0 p p1, extendedAt bc .scatter pc p0 ∧ targetsCode bc sc places p p1 ∧ labelAt bc done p1 pc' ∧
      (∀ {v e} {rts rtEnv : List Var}, scatterError sc.nargs sc.nreq sc.hasRest v = some e →
        eopScatter debug bc ⟨p0, v :: rts, rtEnv⟩ = scatterFails debug bc sc.nargs e ⟨p, v :: rts, rtEnv⟩) ∧
      ∀ {l} {rts rtEnv : List Var}, scatterError sc.nargs sc.nreq sc.hasRest (.list l) = none →
        eopScatter debug bc ⟨p0, .list l :: rts, rtEnv⟩ = scatterList bc sc.nargs sc.nreq
          ((sc.rest 0 none).getD (sc.nargs + 1)) sc.hasRest l ⟨p, .list l :: rts, rtEnv⟩ := by
  obtain ⟨p0, hop, q1, hb1, q2, hb2, q3, hb3, p1, htargets, _, hlabel, rfl⟩ := h
  have hreq := nargs_eq hrests
  have hrest : (sc.rest 0 none).getD (sc.nargs + 1) ≤ sc.nargs + 1 := by
    cases hhas : sc.hasRest with
    | false => rw [rest_none hhas, Option.getD_none]
    | true =>
        obtain ⟨place, hplace, -, hle⟩ := rest_some (k := 0) (r := none) hhas
        rw [hplace, Option.getD_some]
        omega
  have hbyte : ∀ k, k < 256 → (UInt8.ofNat k).toNat = k := by
    intro k hk
    rw [UInt8.toNat_ofNat']
    exact Nat.mod_eq_of_lt hk
  have hread1 := hbyte sc.nargs (by omega)
  have hread2 := hbyte sc.nreq (by omega)
  have hread3 := hbyte ((sc.rest 0 none).getD (sc.nargs + 1)) (by omega)
  refine ⟨p0, q3, p1, hop, htargets, hlabel, fun he => ?_, fun he => ?_⟩
  · simp only [eopScatter, readOperand_byte hb1, readOperand_byte hb2, readOperand_byte hb3, hread1, hread2, hread3,
      Option.bind_eq_bind, Option.bind_some, List.head?_cons, haveRest_eq, he]
  · simp only [eopScatter, readOperand_byte hb1, readOperand_byte hb2, readOperand_byte hb3, hread1, hread2, hread3,
      Option.bind_eq_bind, Option.bind_some, List.head?_cons, haveRest_eq, he]

end

/-! ## What it does -/

theorem scatterRest_ordinary {sc : Scatter} {l rest : List Var} (hl : Ordinary l) (h : scatterRest sc l = .ok rest) :
    Ordinary rest := by
  unfold scatterRest at h
  split at h
  · exact sublist_ordinary hl h
  · cases h
    exact .nil

theorem headD_ordinary {l : List Var} (hl : Ordinary l) : (l.headD .none).ordinary = true := by
  cases l with
  | nil => rfl
  | cons v l => exact hl v List.mem_cons_self

theorem assignTargets_ordinary {rest : List Var} (hrest : Ordinary rest) : ∀ (sc : Scatter) {avail : Nat}
    {values env : List Var}, Ordinary values → Ordinary env → Ordinary (assignTargets rest sc avail values env)
  | .nil, _, _, _, _, henv => henv
  | .cons .rest _ _ next, _, _, _, hvalues, henv =>
      assignTargets_ordinary hrest next (hvalues.of_subset fun _ hv => List.mem_of_mem_drop hv)
        (henv.set (ordinary_list.mpr hrest) _)
  | .cons .optional _ _ next, 0, _, _, hvalues, henv => assignTargets_ordinary hrest next hvalues henv
  | .cons .optional _ _ next, _ + 1, _, _, hvalues, henv =>
      assignTargets_ordinary hrest next (hvalues.of_subset fun _ hv => List.mem_of_mem_tail hv)
        (henv.set (headD_ordinary hvalues) _)
  | .cons .required _ _ next, _, _, _, hvalues, henv =>
      assignTargets_ordinary hrest next (hvalues.of_subset fun _ hv => List.mem_of_mem_tail hv)
        (henv.set (headD_ordinary hvalues) _)

section

variable {sc : Scatter} {l rest env : List Var}

theorem scatterVars_error {v : Var} {e : Error} (h : scatterError sc.nargs sc.nreq sc.hasRest v = some e) :
    scatterVars sc v env = .error e := by
  simp only [scatterVars, h]

theorem scatterVars_fault {f : Fault} (h : scatterError sc.nargs sc.nreq sc.hasRest (.list l) = none)
    (hrest : scatterRest sc l = .error f) : scatterVars sc (.list l) env = .ok (.error f) := by
  simp only [scatterVars, h, hrest]
  rfl

theorem scatterVars_ok (h : scatterError sc.nargs sc.nreq sc.hasRest (.list l) = none)
    (hrest : scatterRest sc l = .ok rest) : scatterVars sc (.list l) env =
      .ok (.ok (l.length - sc.nreq, assignTargets rest sc (l.length - sc.nreq) l env)) := by
  simp only [scatterVars, h, hrest]
  rfl

end

section

variable {S : Setting W} {sc : Scatter} {places : List Nat} {n done pc pc' : Nat} {v temp : Var} {rts l : List Var}
  {st : Store W}

theorem step_scatter (hop : extendedAt S.bc .scatter pc pc') : S.step (.run (st.machine pc (v :: rts) temp)) =
    some ((st.machine pc' (v :: rts) temp).next S.host
      ((eopScatter S.host.debug S.bc ⟨pc', v :: rts, st.env⟩).getD .trap)) := step_extended hop

/-- An error takes the place of the list. -/
theorem carries_scatterError (hargs : sc.nargs < 255) (hrests : sc.rests ≤ 1)
    (h : scatterCode S.bc sc places done pc pc') (hst : st.Sane S.sane) {e : Error}
    (he : scatterError sc.nargs sc.nreq sc.hasRest v = some e) :
    S.Carries n (.run (st.machine pc (v :: rts) temp)) (failWith S.host e) st rts (Value done rts) := by
  obtain ⟨p0, p, p1, hop, htargets, hlabel, herror, -⟩ := eopScatter_read S.host.debug hargs hrests h
  refine .step ((step_scatter hop).trans (congrArg (fun next => some (Machine.next S.host _ (next.getD .trap)))
    (herror he))) ?_
  cases hdebug : S.host.debug with
  | true =>
      rw [failWith, if_pos hdebug]
      exact carries_raise S.hostSane hst (ofError_ordinary e)
  | false =>
      have hjump : scatterFails false S.bc sc.nargs e ⟨p, v :: rts, st.env⟩ =
          some (.opcode ⟨done, .err e :: rts, st.env⟩) := by
        show ((scatterJump S.bc 0 ⟨p + _, .err e :: rts, st.env⟩).bind _ : Option Next) = _
        rw [← targetsCode_end htargets, scatterJump_eq hlabel]
        rfl
      rw [failWith, hdebug, if_neg Bool.false_ne_true, hjump]
      exact .pure hst ⟨rfl, temp, rfl⟩

/-- The targets take their values from the list, and the defaults are next. -/
theorem step_scatterList (hargs : sc.nargs < 255) (hrests : sc.rests ≤ 1) (h : scatterCode S.bc sc places done pc pc')
    (hplaces : ∀ place ∈ places.take sc.defaults, 1 < place) (hnone : scatterError sc.nargs sc.nreq sc.hasRest (.list l) = none)
    {rest : List Var} (hrest : scatterRest sc l = .ok rest) :
    S.step (.run (st.machine pc (.list l :: rts) temp)) =
      some (.run (Store.machine ⟨assignTargets rest sc (l.length - sc.nreq) l st.env, st.world⟩
        (sc.entry places (l.length - sc.nreq) done) (.list l :: rts) temp)) := by
  obtain ⟨p0, p, p1, hop, htargets, hlabel, -, hlist⟩ := eopScatter_read S.host.debug hargs hrests h
  rw [step_scatter hop, hlist hnone, scatterList_ok htargets hlabel hplaces hrests (nreq_le_of_none hnone) hrest]
  rfl

theorem step_scatterFault (hargs : sc.nargs < 255) (hrests : sc.rests ≤ 1) (h : scatterCode S.bc sc places done pc pc')
    (hnone : scatterError sc.nargs sc.nreq sc.hasRest (.list l) = none) {f : Fault}
    (hrest : scatterRest sc l = .error f) :
    S.step (.run (st.machine pc (.list l :: rts) temp)) = some .trapped := by
  obtain ⟨p0, p, p1, hop, htargets, hlabel, -, hlist⟩ := eopScatter_read S.host.debug hargs hrests h
  rw [step_scatter hop, hlist hnone, scatterList_fault htargets hrests hrest]
  rfl

end

end Waverous
