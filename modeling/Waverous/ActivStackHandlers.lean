import Waverous.ActivStackProofs

/-! # Which handler takes an error over — `execute.c`

    `find_handler_activ` looks for a handler without touching the stack, and
    `unwind_stack` takes the stack down to one, with FINALLY handlers and pending
    built-in functions on the way.  Both walk over the same markers: a run-time
    stack is the cells of a list of items, and what each of the two does to one item
    is what they have to agree on. -/

namespace Waverous.ActivStack

/-- A (codes, label) pair of a handler. -/
structure Arm where
  codes : Var
  label : Int32

/-- Whether the entry marks a handler. -/
def isMarker : Var → Bool
  | .catch _ | .finally _ => true
  | _ => false

/-- What there is on a run-time stack. -/
inductive Item where
  | value (v : Var) (plain : isMarker v = false)
  | finally (pc : Nat)
  | catch (arms : List Arm)

/-- The pairs of a handler, in the order they were pushed. -/
def armCells (arms : List Arm) : List Var := arms.flatMap fun arm => [arm.codes, .int arm.label]

/-- The entries of an item, the top first. -/
def Item.cells : Item → List Var
  | .value v _ => [v]
  | .finally pc => [.finally pc]
  | .catch arms => .catch arms.length :: (armCells arms).reverse

/-- The run-time stack of the items, the top first. -/
def cells (items : List Item) : List Var := items.flatMap Item.cells

/-- Whether the item is a handler for the code. -/
def Item.catches (code : Var) : Item → Bool
  | .catch arms => arms.any fun arm => handles code arm.codes
  | _ => false

/-- Whether a raise of the code stops at the item. -/
def Item.stops (code : Var) : Item → Bool
  | .finally _ => true
  | item => item.catches code

variable {code value : Var} {arms : List Arm} {item : Item} {items : List Item}

/-! ## One run-time stack -/

theorem armCells_length (arms : List Arm) : (armCells arms).length = 2 * arms.length := by
  induction arms with
  | nil => rfl
  | cons arm arms ih =>
      show (armCells arms).length + 2 = 2 * (arms.length + 1)
      omega

theorem anyHandles_armCells (code : Var) (arms : List Arm) :
    anyHandles code (armCells arms) = arms.any fun arm => handles code arm.codes := by
  induction arms with
  | nil => rfl
  | cons arm arms ih =>
      show (handles code arm.codes || anyHandles code (armCells arms)) = _
      rw [ih, List.any_cons]

/-- The first pair that handles the code gives the label. -/
theorem handlerPc_armCells (code : Var) (arms : List Arm) :
    handlerPc code (armCells arms)
      = (arms.find? fun arm => handles code arm.codes).map fun arm => arm.label.toInt.toNat := by
  induction arms with
  | nil => rfl
  | cons arm arms ih =>
      show (if handles code arm.codes then some arm.label.toInt.toNat
        else handlerPc code (armCells arms)) = _
      rw [List.find?_cons]
      cases handles code arm.codes with
      | true => rfl
      | false => exact ih

theorem popHandlers_skip (why : Reason) (code value : Var) (xs rest : List Var) :
    popHandlers why code value xs.length (xs ++ rest) = popHandlers why code value 0 rest := by
  induction xs with
  | nil => rfl
  | cons x xs ih => exact ih

theorem hasHandler_skip (code : Var) (xs rest : List Var) :
    hasHandler code xs.length (xs ++ rest) = hasHandler code 0 rest := by
  induction xs with
  | nil => rfl
  | cons x xs ih => exact ih

theorem take_armCells (arms : List Arm) (rest : List Var) :
    (((armCells arms).reverse ++ rest).take (2 * arms.length)).reverse = armCells arms := by
  have hlen : 2 * arms.length = (armCells arms).reverse.length := by
    rw [List.length_reverse, armCells_length]
  rw [hlen, List.take_left, List.reverse_reverse]

theorem drop_armCells (arms : List Arm) (rest : List Var) :
    ((armCells arms).reverse ++ rest).drop (2 * arms.length) = rest := by
  have hlen : 2 * arms.length = (armCells arms).reverse.length := by
    rw [List.length_reverse, armCells_length]
  rw [hlen, List.drop_left]

/-- The search looks at every item. -/
theorem hasHandler_cells (code : Var) (items : List Item) :
    hasHandler code 0 (cells items) = items.any (Item.catches code) := by
  induction items with
  | nil => rfl
  | cons item items ih =>
      rw [List.any_cons]
      cases item with
      | value v hplain =>
          have hv : hasHandler code 0 (v :: cells items) = hasHandler code 0 (cells items) := by
            cases v with
            | «catch» | «finally» => exact nomatch hplain
            | int | obj | str | err | list | clear | none | float => rfl
          exact hv.trans ih
      | «finally» pc => exact ih
      | «catch» arms =>
          show (anyHandles code ((((armCells arms).reverse ++ cells items).take (2 * arms.length)).reverse)
            || hasHandler code (2 * arms.length) ((armCells arms).reverse ++ cells items)) = _
          rw [take_armCells, anyHandles_armCells]
          have hskip := hasHandler_skip code (armCells arms).reverse (cells items)
          rw [List.length_reverse, armCells_length] at hskip
          rw [hskip, ih]
          rfl

/-- What a raise finds on one run-time stack: the handler it stops at, the pc there, and the
    stack that the handler starts with. -/
inductive StopsAt (code value : Var) (items : List Item) : Bool → Nat → List Var → Prop where
  | finally (above : List Item) (pc : Nat) (below : List Item) :
      items = above ++ .finally pc :: below → (∀ i ∈ above, i.stops code = false) →
      StopsAt code value items false pc (value :: .int Reason.raise.num :: cells below)
  /-- the innermost handler for the code, and its first pair that handles it -/
  | handler (above : List Item) (before : List Arm) (arm : Arm) (after : List Arm)
      (below : List Item) :
      items = above ++ .catch (before ++ arm :: after) :: below →
      (∀ i ∈ above, i.stops code = false) → (∀ a ∈ before, handles code a.codes = false) →
      handles code arm.codes = true →
      StopsAt code value items true arm.label.toInt.toNat (value :: cells below)

/-- A raise goes on behind an item at which it does not stop. -/
theorem StopsAt.cons {isHandler : Bool} {pc : Nat} {rt : List Var}
    (h : StopsAt code value items isHandler pc rt) (hitem : item.stops code = false) :
    StopsAt code value (item :: items) isHandler pc rt := by
  cases h with
  | «finally» above pc below hitems habove =>
      refine .finally (item :: above) pc below (by rw [hitems]; rfl) fun i hi => ?_
      rcases List.mem_cons.mp hi with rfl | hi
      · exact hitem
      · exact habove i hi
  | handler above before arm after below hitems habove hbefore harm =>
      refine .handler (item :: above) before arm after below (by rw [hitems]; rfl) (fun i hi => ?_)
        hbefore harm
      rcases List.mem_cons.mp hi with rfl | hi
      · exact hitem
      · exact habove i hi

/-- Unwinding one run-time stack for a raise. -/
theorem popHandlers_cells (code value : Var) (items : List Item) :
    match popHandlers .raise code value 0 (cells items) with
    | none => ∀ i ∈ items, i.stops code = false
    | some (pc, rt) => ∃ isHandler, StopsAt code value items isHandler pc rt := by
  induction items with
  | nil =>
      intro _ h
      cases h
  | cons item items ih =>
      -- what happens when the raise does not stop at the item
      have hgo : item.stops code = false → popHandlers .raise code value 0 (cells (item :: items))
            = popHandlers .raise code value 0 (cells items) →
          match popHandlers .raise code value 0 (cells (item :: items)) with
          | none => ∀ i ∈ item :: items, i.stops code = false
          | some (pc, rt) => ∃ isHandler, StopsAt code value (item :: items) isHandler pc rt := by
        intro hitem heq
        rw [heq]
        split at ih
        next hnone =>
          intro i hi
          rcases List.mem_cons.mp hi with rfl | hi
          · exact hitem
          · exact ih i hi
        next hsome =>
          obtain ⟨isHandler, hstop⟩ := ih
          exact ⟨isHandler, hstop.cons hitem⟩
      cases item with
      | value v hplain =>
          refine hgo rfl ?_
          show popHandlers .raise code value 0 (v :: cells items) = _
          cases v with
          | «catch» | «finally» => cases hplain
          | int | obj | str | err | list | clear | none | float => rfl
      | «finally» pc => exact ⟨false, .finally [] pc items rfl fun _ h => (by cases h)⟩
      | «catch» arms =>
          have hcells : cells (.catch arms :: items) =
              .catch arms.length :: ((armCells arms).reverse ++ cells items) := rfl
          cases hfind : arms.find? fun arm => handles code arm.codes with
          | none =>
              refine hgo ?_ ?_
              · show (arms.any fun arm => handles code arm.codes) = false
                rw [List.any_eq_false]
                exact List.find?_eq_none.mp hfind
              · rw [hcells, popHandlers, if_pos rfl, take_armCells, handlerPc_armCells, hfind]
                have hskip := popHandlers_skip .raise code value (armCells arms).reverse (cells items)
                rw [List.length_reverse, armCells_length] at hskip
                exact hskip
          | some arm =>
              obtain ⟨harm, before, after, harms, hbefore⟩ := List.find?_eq_some_iff_append.mp hfind
              rw [hcells, popHandlers, if_pos rfl, take_armCells, drop_armCells, handlerPc_armCells, hfind]
              subst harms
              refine ⟨true, .handler [] before arm after items rfl (fun _ h => (by cases h)) ?_ harm⟩
              exact fun a ha => by simpa using hbefore a ha

/-! ## The activation stack -/

theorem findHandlerActiv_spec (code : Var) (slots : Nat → Activation) (top : Nat) :
    match findHandlerActiv code slots top with
    | some f => f ≤ top ∧ hasHandler code 0 (slots f).rtStack = true ∧
        ∀ k, f < k → k ≤ top → hasHandler code 0 (slots k).rtStack = false
    | none => ∀ k ≤ top, hasHandler code 0 (slots k).rtStack = false := by
  induction top with
  | zero =>
      simp only [findHandlerActiv]
      by_cases h0 : hasHandler code 0 (slots 0).rtStack = true
      · rw [if_pos h0]
        exact ⟨Nat.le_refl 0, h0, fun k hk hk' => absurd hk (by omega)⟩
      · rw [if_neg h0]
        intro k hk
        rw [Nat.le_zero.mp hk]
        exact Bool.eq_false_iff.mpr h0
  | succ top ih =>
      simp only [findHandlerActiv]
      by_cases ht : hasHandler code 0 (slots (top + 1)).rtStack = true
      · rw [if_pos ht]
        exact ⟨Nat.le_refl _, ht, fun k hk hk' => absurd hk (by omega)⟩
      · rw [if_neg ht]
        have hlast : ∀ k, ¬k ≤ top → k ≤ top + 1 → hasHandler code 0 (slots k).rtStack = false := by
          intro k hk hk'
          rw [show k = top + 1 by omega]
          exact Bool.eq_false_iff.mpr ht
        split at ih
        next f _ =>
          obtain ⟨hf, hhas, hnone⟩ := ih
          refine ⟨Nat.le_succ_of_le hf, hhas, fun k hk hk' => ?_⟩
          by_cases hkt : k ≤ top
          · exact hnone k hk hkt
          · exact hlast k hkt hk'
        next =>
          intro k hk
          by_cases hkt : k ≤ top
          · exact ih k hkt
          · exact hlast k hkt hk

theorem findHandlerActiv_congr (code : Var) {slots slots' : Nat → Activation} {top : Nat}
    (h : ∀ k ≤ top, slots' k = slots k) :
    findHandlerActiv code slots' top = findHandlerActiv code slots top := by
  induction top with
  | zero => simp only [findHandlerActiv, h 0 (Nat.le_refl 0)]
  | succ n ih =>
      simp only [findHandlerActiv, h (n + 1) (Nat.le_refl _)]
      rw [ih fun k hk => h k (Nat.le_succ_of_le hk)]

theorem shortCircuit_goes_on (caller a top : Nat) (reply : Reply) (s : Vm) :
    (shortCircuit caller a top reply s).running = s.running ∧
      (shortCircuit caller a top reply s).outcome = s.outcome := by
  induction reply generalizing s with
  | call callee pc data next ih =>
      simp only [shortCircuit]
      split
      · exact ih _
      · exact ⟨rfl, rfl⟩
  | «return» | raise | suspend | kill => exact ⟨rfl, rfl⟩

/-- The run-time stacks of the frames are cells of items. -/
def Nested (slots : Nat → Activation) (top : Nat) (itemsOf : Nat → List Item) : Prop :=
  ∀ k ≤ top, (slots k).rtStack = cells (itemsOf k)

/-- The raise has stopped in frame `k`: the frames below are as they were, and the task
    goes on there. -/
structure Stopped (code value : Var) (itemsOf : Nat → List Item) (s : Vm) (isHandler : Bool)
    (k : Nat) (s' : Vm) : Prop where
  top : s'.top = k
  running : s'.running = s.running
  outcome : s'.outcome = s.outcome
  below : ∀ j < k, s'.slots j = s.slots j
  frame : ∃ pc rt, StopsAt code value (itemsOf k) isHandler pc rt ∧
    s'.slots k = { s.slots k with pc, rtStack := rt }

variable {lineNumber : Activation → Int32} {funcName : Nat → Str} {replies : Nat → Reply}
  {s : Vm} {itemsOf : Nat → List Item} {f top : Nat}

/-- A raise that stops in frame `top`. -/
theorem stopped_here {pc : Nat} {rt : List Var} {isHandler : Bool}
    (hstop : StopsAt code value (itemsOf top) isHandler pc rt) :
    Stopped code value itemsOf s isHandler top
      (({ s with top } : Vm).modify top fun a => { a with pc, rtStack := rt }) where
  top := rfl
  running := rfl
  outcome := rfl
  below := fun _ hj => modify_slots_ne _ _ (Nat.ne_of_lt hj)
  frame := ⟨pc, rt, hstop, modify_slots_self _ top _⟩

/-- A handler that a raise stops at is one that the search finds. -/
theorem StopsAt.found {isHandler : Bool} {pc : Nat} {rt : List Var}
    (h : StopsAt code value items isHandler pc rt) (hh : isHandler = true) :
    items.any (Item.catches code) = true := by
  cases h with
  | «finally» => exact nomatch hh
  | handler above before arm after below hitems _ _ harm =>
      rw [List.any_eq_true]
      refine ⟨.catch (before ++ arm :: after), ?_, ?_⟩
      · rw [hitems]
        exact List.mem_append_right above List.mem_cons_self
      · show ((before ++ arm :: after).any fun arm => handles code arm.codes) = true
        rw [List.any_append, List.any_cons, harm, Bool.true_or, Bool.or_true]

/-- Unwinding for a raise stops above the frame of the handler or in it, when there is one. -/
theorem unwindStack_raise (replies : Nat → Reply) (hcode : codeOf .raise value = code)
    (hnested : Nested s.slots top itemsOf) (hfind : findHandlerActiv code s.slots top = some f) :
    ∃ isHandler k, f ≤ k ∧ k ≤ top ∧ (isHandler = true → k = f) ∧
      Stopped code value itemsOf s isHandler k
        (unwindStack lineNumber funcName replies top .raise value s) := by
  induction top generalizing s with
  | zero =>
      have hspec := findHandlerActiv_spec code s.slots 0
      rw [hfind] at hspec
      obtain ⟨hf, hhas, -⟩ := hspec
      have hf0 : f = 0 := Nat.le_zero.mp hf
      subst hf0
      rw [hnested 0 (Nat.le_refl 0), hasHandler_cells] at hhas
      have hpop := popHandlers_cells code value (itemsOf 0)
      simp only [unwindStack, hcode, hnested 0 (Nat.le_refl 0)]
      split at hpop
      next hnone =>
        obtain ⟨i, hi, hcatch⟩ := List.any_eq_true.mp hhas
        have hstop := hpop i hi
        cases i with
        | value | «finally» => cases hcatch
        | «catch» arms => exact absurd (hcatch.symm.trans hstop) (by decide)
      next pc rt hsome =>
        obtain ⟨isHandler, hstop⟩ := hpop
        rw [hsome]
        exact ⟨isHandler, 0, Nat.le_refl 0, Nat.le_refl 0, fun _ => rfl, stopped_here hstop⟩
  | succ top ih =>
      have hspec := findHandlerActiv_spec code s.slots (top + 1)
      rw [hfind] at hspec
      obtain ⟨hf, hhas, habove⟩ := hspec
      have hrt := hnested (top + 1) (Nat.le_refl _)
      have hpop := popHandlers_cells code value (itemsOf (top + 1))
      simp only [unwindStack, hcode, hrt]
      split at hpop
      next hnone =>
        -- nothing stops it here, so the handler is further down
        rw [hnone]
        have hft : f ≤ top := by
          by_contra hc
          have hftop : f = top + 1 := by omega
          rw [hftop, hrt, hasHandler_cells] at hhas
          obtain ⟨i, hi, hcatch⟩ := List.any_eq_true.mp hhas
          have hstop := hpop i hi
          cases i with
          | value | «finally» => cases hcatch
          | «catch» arms => exact absurd (hcatch.symm.trans hstop) (by decide)
        have hnot : ¬hasHandler code 0 (s.slots (top + 1)).rtStack = true := by
          rw [habove (top + 1) (by omega) (Nat.le_refl _)]
          exact Bool.false_ne_true
        have hfind' : findHandlerActiv code s.slots top = some f := by
          rw [← hfind]
          simp only [findHandlerActiv]
          rw [if_neg hnot]
        have hgo : ∀ s' : Vm, (∀ k ≤ top, s'.slots k = s.slots k) → s'.running = s.running →
            s'.outcome = s.outcome → ∃ isHandler k, f ≤ k ∧ k ≤ top + 1 ∧
              (isHandler = true → k = f) ∧ Stopped code value itemsOf s isHandler k
                (unwindStack lineNumber funcName replies top .raise value s') := by
          intro s' hslots hrun hout
          have hn' : Nested s'.slots top itemsOf := fun k hk => by
            rw [hslots k hk]
            exact hnested k (Nat.le_succ_of_le hk)
          have hfind'' : findHandlerActiv code s'.slots top = some f := by
            rw [findHandlerActiv_congr code hslots]
            exact hfind'
          obtain ⟨isHandler, k, hfk, hk, hkf, hst⟩ := ih hn' hfind''
          refine ⟨isHandler, k, hfk, Nat.le_succ_of_le hk, hkf, hst.top, hst.running.trans hrun,
            hst.outcome.trans hout, fun j hj => (hst.below j hj).trans (hslots j (by omega)), ?_⟩
          obtain ⟨pc, rt, hstop, hframe⟩ := hst.frame
          refine ⟨pc, rt, hstop, ?_⟩
          rw [hframe, hslots k hk]
        simp only [reduceCtorEq, if_false]
        split
        next hpend =>
          -- the built-in function is short-circuited
          obtain ⟨-, hslots⟩ := shortCircuit_spec (s.slots (top + 1)).biFuncCaller (top + 1) top
            (replies (top + 1)) { s with top }
          obtain ⟨hrun, hout⟩ := shortCircuit_goes_on (s.slots (top + 1)).biFuncCaller (top + 1) top
            (replies (top + 1)) { s with top }
          exact hgo _ hslots hrun hout
        next =>
          exact hgo _ (fun _ _ => rfl) rfl rfl
      next pc rt hsome =>
        obtain ⟨isHandler, hstop⟩ := hpop
        rw [hsome]
        refine ⟨isHandler, top + 1, hf, Nat.le_refl _, fun hh => ?_, stopped_here hstop⟩
        by_contra hne
        have hno := habove (top + 1) (by omega) (Nat.le_refl _)
        rw [hrt, hasHandler_cells, hstop.found hh] at hno
        cases hno

/-- The value with which `raise_error` unwinds the stack when a handler has been found. -/
def exceptionValue (lineNumber : Activation → Int32) (funcName : Nat → Str) (s : Vm) (code : Var)
    (msg : Str) (value : Var) (f : Nat) : Var :=
  .list [code, .str msg, value, .list (makeStackList lineNumber funcName s.slots f (s.top - f))]

/-- The search for a handler and the unwinding agree: when the search finds frame `f`, the
    raise stops at a FINALLY handler in `f` or above it, or in `f` at the innermost handler for
    the code, with its first pair that handles it; when the search finds none, there is none. -/
theorem handler_search_agrees (replies : Nat → Reply) (code : Var) (msg : Str) (value : Var)
    (hnested : Nested s.slots s.top itemsOf) :
    (∀ f, findHandlerActiv code s.slots s.top = some f →
      ∃ isHandler k, f ≤ k ∧ k ≤ s.top ∧ (isHandler = true → k = f) ∧
        Stopped code (exceptionValue lineNumber funcName s code msg value f) itemsOf s isHandler k
          (raiseError lineNumber funcName replies code msg value s)) ∧
      (findHandlerActiv code s.slots s.top = none → ∀ k ≤ s.top, ∀ arms, .catch arms ∈ itemsOf k →
        ∀ arm ∈ arms, handles code arm.codes = false) := by
  constructor
  · intro f hfind
    have hraise : raiseError lineNumber funcName replies code msg value s
        = unwindStack lineNumber funcName replies s.top .raise
            (exceptionValue lineNumber funcName s code msg value f) s := by
      simp only [raiseError, raised, hfind]
      rfl
    rw [hraise]
    exact unwindStack_raise replies rfl hnested hfind
  · intro hfind k hk arms harms arm harm
    have hspec := findHandlerActiv_spec code s.slots s.top
    rw [hfind] at hspec
    have hnone := hspec k hk
    rw [hnested k hk, hasHandler_cells] at hnone
    have hcatch := List.any_eq_false.mp hnone (.catch arms) harms
    have hall := Bool.eq_false_iff.mpr hcatch
    exact Bool.eq_false_iff.mpr (List.any_eq_false.mp hall arm harm)

/-- A verb with `try … except (E_PERM)` has called one that is in a `try … finally`. -/
def tryStacks : Nat → List Item
  | 0 => [.catch [⟨.list [.err .ePerm], 5⟩]]
  | _ => [.value (.int 1) rfl, .finally 9]

theorem handler_search_agrees_finally :
    ∃ s : Vm, s.top = 1 ∧ findHandlerActiv (.err .ePerm) s.slots s.top = some 0 ∧
      ∃ isHandler k, k ≤ s.top ∧ Stopped (.err .ePerm)
        (exceptionValue (fun _ => 0) (fun _ => []) s (.err .ePerm) [] zero 0) tryStacks s isHandler k
        (raiseError (fun _ => 0) (fun _ => []) (fun _ => .return zero) (.err .ePerm) [] zero s) := by
  let s : Vm := { Vm.init with
    slots := fun k => { progr := nothing, rtStack := cells (tryStacks k) }
    top := 1
    running := true }
  have hfind : findHandlerActiv (.err .ePerm) s.slots s.top = some 0 := by decide
  have hagree := @handler_search_agrees (fun _ => 0) (fun _ => []) s tryStacks
    (fun _ => .return zero) (.err .ePerm) [] zero fun _ _ => rfl
  obtain ⟨isHandler, k, -, hk, -, hst⟩ := hagree.1 0 hfind
  exact ⟨s, rfl, hfind, isHandler, k, hk, hst⟩

end Waverous.ActivStack
