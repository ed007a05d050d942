import Waverous.Lib.Runs
import Waverous.ActivStack

/-! # Whose permissions a built-in function is continued with — `execute.c`

    A built-in function that called a verb is continued when the verb's frame is
    left.  After a return it gets the programmer of the frame that called it.
    After a raise, an uncaught error or an abort it gets what the slot of the
    frame just freed holds: `Sound` is the condition under which that is the same
    programmer, and `continuations_keep_progr` is about the runs that meet it. -/

namespace Waverous.ActivStack

/-- While a built-in function is continued, every verb it calls before it is
    continued again has programmer `p`. -/
def CallsRunAs (p : Objid) : Reply → Prop
  | .call callee pc _ next => pc ≠ 0 → callee.progr = p ∧ CallsRunAs p next
  | _ => True

/-- Every frame that unwinding from `top` discards, and on which a built-in
    function is pending, has the programmer of the frame that called the
    built-in, and so have the verbs the built-in calls when it is continued. -/
def SameProgr (s : Vm) (replies : Nat → Reply) (top : Nat) (why : Reason) (value : Var) : Prop :=
  ∀ k < top,
    (∀ j, k < j → j ≤ top →
      popHandlers why (codeOf why value) value 0 (s.slots j).rtStack = none) →
    (s.slots (k + 1)).biFuncPc ≠ 0 →
    (s.slots (k + 1)).progr = (s.slots k).progr ∧
      CallsRunAs (s.slots k).progr (replies (k + 1))

section Steps

variable (lineNumber : Activation → Int32) (funcName : Nat → Str)

/-- The errors that a package makes the frame `top` raise, and an abort, discard
    no frame but as `SameProgr` says. -/
def SoundReply (s : Vm) (replies : Nat → Reply) (top : Nat) (reply : Reply) : Prop :=
  match reply with
  | .raise code msg value =>
      (s.slots top).debug = true →
        let r := raised lineNumber funcName code msg value s.slots top
        SameProgr s replies top r.1 r.2
  | .kill => SameProgr s replies top .abort zero
  | _ => True

/-- The condition on a step. -/
def Sound (s : Vm) : Action → Prop
  | .biFuncCall _ reply replies =>
      match reply with
      | .suspend e =>
          e ≠ .eNone → SoundReply lineNumber funcName s replies s.top (.raise (.err e) [] zero)
      | reply => SoundReply lineNumber funcName s replies s.top reply
  | .raiseError code msg value replies =>
      let r := raised lineNumber funcName code msg value s.slots s.top
      SameProgr s replies s.top r.1 r.2
  | .abortTask replies => SameProgr s replies s.top .abort zero
  | .unwind why value replies =>
      if why = .return then
        ∀ top, s.top = top + 1 →
          popHandlers why (codeOf why value) value 0 (s.slots s.top).rtStack = none →
          (s.slots s.top).biFuncPc ≠ 0 →
          match replies s.top with
          | .suspend e => e ≠ .eNone → SameProgr s replies top .raise (.err e)
          | reply => SoundReply lineNumber funcName s replies top reply
      else SameProgr s replies s.top why value
  | _ => True

/-- What holds between steps. -/
structure Inv (s : Vm) : Prop where
  /-- a pending built-in was called by the frame below -/
  framed : ∀ k ≤ s.top, (s.slots k).biFuncPc ≠ 0 → (s.slots k).biFuncCaller + 1 = k
  saved : ∀ frames ∈ s.suspended, frames ≠ [] ∧
    ∀ (k : Nat) (a : Activation), frames[k]? = some a → a.biFuncPc ≠ 0 → a.biFuncCaller + 1 = k
  own : ∀ c ∈ s.log, c.progr = c.callerProgr

/-! ## Frames -/

@[simp] theorem modify_slots_self (s : Vm) (i : Nat) (f : Activation → Activation) :
    (s.modify i f).slots i = f (s.slots i) := by simp [Vm.modify]

theorem modify_slots_ne (s : Vm) {i k : Nat} (f : Activation → Activation) (h : k ≠ i) :
    (s.modify i f).slots k = s.slots k := by simp [Vm.modify, h]

variable {lineNumber funcName} {s : Vm}

/-- Storing into a frame, but not into what is pending on it. -/
theorem Inv.modify (h : Inv s) (i : Nat) {f : Activation → Activation}
    (hpc : (f (s.slots i)).biFuncPc = (s.slots i).biFuncPc)
    (hcaller : (f (s.slots i)).biFuncCaller = (s.slots i).biFuncCaller) : Inv (s.modify i f) where
  framed := by
    intro k hk hpend
    by_cases hki : k = i
    · subst hki
      rw [modify_slots_self] at hpend ⊢
      rw [hcaller]
      exact h.framed k hk (by rw [← hpc]; exact hpend)
    · rw [modify_slots_ne s f hki] at hpend ⊢
      exact h.framed k hk hpend
  saved := h.saved
  own := h.own

theorem Inv.push (h : Inv s) (i : Nat) (v : Var) : Inv (s.push i v) := h.modify i rfl rfl

/-- Frames may be dropped from the top. -/
theorem Inv.pop (h : Inv s) {top : Nat} (htop : top ≤ s.top) : Inv { s with top } :=
  ⟨fun k hk => h.framed k (Nat.le_trans hk htop), h.saved, h.own⟩

theorem Inv.pushActivation (h : Inv s) {a : Activation}
    (ha : a.biFuncPc ≠ 0 → a.biFuncCaller = s.top) : Inv (s.pushActivation a) where
  framed := by
    intro k hk hpend
    by_cases hkt : k = s.top + 1
    · subst hkt
      have hself : (s.pushActivation a).slots (s.top + 1) = a :=
        modify_slots_self s (s.top + 1) fun _ => a
      rw [hself] at hpend ⊢
      rw [ha hpend]
    · have hne : (s.pushActivation a).slots k = s.slots k :=
        modify_slots_ne s (fun _ => a) hkt
      rw [hne] at hpend ⊢
      have hle : k ≤ s.top + 1 := hk
      exact h.framed k (by omega) hpend
  saved := h.saved
  own := h.own

/-- A built-in function's verb call: the callee's frame, with the call pending. -/
theorem pushActivation_setPending (s : Vm) (callee : Activation) (caller id pc : Nat)
    (data : Var) :
    (s.pushActivation callee).setPending caller id pc data =
      s.pushActivation { callee with
        biFuncId := id, biFuncPc := pc, biFuncData := data, biFuncCaller := caller } := by
  simp [Vm.pushActivation, Vm.setPending, Vm.modify]

theorem Inv.suspendTask (h : Inv s) : Inv s.suspendTask where
  framed := h.framed
  saved := by
    intro frames hf
    rcases List.mem_append.mp hf with hf | hf
    · exact h.saved frames hf
    · rw [List.mem_singleton.mp hf]
      refine ⟨by simp, ?_⟩
      intro k a ha hpend
      obtain ⟨hk, rfl⟩ : k < s.top + 1 ∧ s.slots k = a := by
        simpa [List.getElem?_map, List.getElem?_range, List.getElem?_eq_some_iff] using ha
      exact h.framed k (by omega) hpend
  own := h.own

theorem Inv.resume (h : Inv s) {frames : List Activation} (hf : frames ∈ s.suspended) (v : Var) :
    Inv (resumeFromPreviousVm frames v { s with suspended := s.suspended.erase frames }) := by
  obtain ⟨hne, hframes⟩ := h.saved frames hf
  have hload : Inv { s with
      slots := fun i => frames.getD i (s.slots i), top := frames.length - 1, running := true,
      outcome := none, suspended := s.suspended.erase frames } := by
    refine ⟨?_, fun fs hfs => h.saved fs (List.mem_of_mem_erase hfs), h.own⟩
    intro k hk hpend
    have hlen : 0 < frames.length := List.length_pos_iff.mpr hne
    have hkl : k < frames.length := by
      have hk' : k ≤ frames.length - 1 := hk
      omega
    have hget : frames[k]? = some (frames.getD k (s.slots k)) := by
      rw [List.getD_eq_getElem?_getD, List.getElem?_eq_getElem hkl]
      rfl
    exact hframes k _ hget hpend
  cases v with
  | err e => exact hload
  | int _ | obj _ | str _ | list _ | clear | none | «catch» _ | «finally» _ | float _ =>
      exact hload.push _ _

/-! ## Unwinding -/

/-- Continuing a built-in function with its caller's programmer. -/
theorem Inv.continueBiFunc (h : Inv s) {caller : Nat} {progr : Objid}
    (hp : progr = (s.slots caller).progr) : Inv (s.continueBiFunc caller progr) := by
  refine ⟨h.framed, h.saved, ?_⟩
  intro c hc
  rcases List.mem_append.mp hc with hc | hc
  · exact h.own c hc
  · rw [List.mem_singleton.mp hc]
    exact hp

/-- What `shortCircuit` changes: the record, and the slot above the top frame. -/
theorem shortCircuit_spec (caller a top : Nat) (reply : Reply) (s : Vm) :
    (shortCircuit caller a top reply s).top = s.top ∧
      ∀ k ≤ top, (shortCircuit caller a top reply s).slots k = s.slots k := by
  induction reply generalizing s with
  | call callee pc data next ih =>
      simp only [shortCircuit]
      have hmod : ∀ k ≤ top, ((s.continueBiFunc caller (s.slots a).progr).modify (top + 1)
          fun _ => callee).slots k = s.slots k := by
        intro k hk
        rw [modify_slots_ne _ _ (by omega)]
        rfl
      split
      · obtain ⟨htop, hslots⟩ := ih ((s.continueBiFunc caller (s.slots a).progr).modify (top + 1)
          fun _ => callee)
        exact ⟨htop, fun k hk => (hslots k hk).trans (hmod k hk)⟩
      · exact ⟨rfl, hmod⟩
  | «return» | raise | suspend | kill => exact ⟨rfl, fun _ _ => rfl⟩

/-- Continuing by an error, when the freed frame and the verbs called meanwhile
    have the programmer of the frame that called the built-in. -/
theorem Inv.shortCircuit {reply : Reply} {top : Nat} (h : Inv s) (htop : s.top = top)
    (hfreed : (s.slots (top + 1)).progr = (s.slots top).progr)
    (hcalls : CallsRunAs (s.slots top).progr reply) :
    Inv (shortCircuit top (top + 1) top reply s) := by
  induction reply generalizing s with
  | call callee pc data next ih =>
      simp only [ActivStack.shortCircuit]
      let s1 := s.continueBiFunc top (s.slots (top + 1)).progr
      have h1 : Inv s1 := h.continueBiFunc hfreed
      have h2 : Inv (s1.modify (top + 1) fun _ => callee) := by
        refine ⟨?_, h1.saved, h1.own⟩
        intro k hk hpend
        have hk' : k ≤ top := by rw [← htop]; exact hk
        rw [modify_slots_ne s1 _ (by omega)] at hpend ⊢
        exact h1.framed k hk hpend
      split
      next hpc =>
        obtain ⟨hcallee, hnext⟩ := hcalls hpc
        have hslot : (s1.modify (top + 1) fun _ => callee).slots top = s.slots top :=
          modify_slots_ne s1 _ (by omega)
        refine ih h2 htop ?_ ?_
        · rw [modify_slots_self, hslot]
          exact hcallee
        · rw [hslot]
          exact hnext
      · exact h2
  | «return» | raise | suspend | kill => exact h.continueBiFunc hfreed

/-- Unwinding for an error or an abort. -/
theorem Inv.unwindError {replies : Nat → Reply} (h : Inv s) (top : Nat) (why : Reason)
    (hwhy : why ≠ .return) (value : Var) (htop : top ≤ s.top)
    (hsame : SameProgr s replies top why value) :
    Inv (unwindStack lineNumber funcName replies top why value s) := by
  induction top generalizing s with
  | zero =>
      simp only [unwindStack]
      split
      · exact (h.pop htop).modify 0 rfl rfl
      · exact ⟨(h.pop htop).framed, h.saved, h.own⟩
  | succ top ih =>
      simp only [unwindStack]
      split
      · exact (h.pop htop).modify (top + 1) rfl rfl
      next hnone =>
        have hpop : Inv { s with top } := h.pop (Nat.le_of_succ_le htop)
        -- the frames below the freed one are discarded as before
        have hbelow : ∀ s' : Vm, (∀ k ≤ top, s'.slots k = s.slots k) →
            SameProgr s' replies top why value := by
          intro s' hs' k hk hdisc
          rw [hs' k (Nat.le_of_lt hk), hs' (k + 1) hk]
          refine hsame k (Nat.lt_succ_of_lt hk) fun j hkj hj => ?_
          by_cases hjt : j = top + 1
          · rw [hjt]
            exact hnone
          · rw [← hs' j (by omega)]
            exact hdisc j hkj (by omega)
        split
        next hpend =>
          have hcaller : (s.slots (top + 1)).biFuncCaller = top :=
            Nat.succ.inj (h.framed (top + 1) htop hpend)
          obtain ⟨hfreed, hcalls⟩ := hsame top (Nat.lt_succ_self top)
            (fun j hj hj' => by rw [show j = top + 1 by omega]; exact hnone) hpend
          rw [hcaller]
          obtain ⟨htop', hslots⟩ := shortCircuit_spec top (top + 1) top (replies (top + 1))
            { s with top }
          refine ih ?_ (Nat.le_of_eq htop'.symm) (hbelow _ hslots)
          exact hpop.shortCircuit rfl hfreed hcalls
        next => exact ih hpop (Nat.le_refl top) (hbelow _ fun _ _ => rfl)

theorem raised_ne_return (code : Var) (msg : Str) (value : Var) (slots : Nat → Activation)
    (top : Nat) : (raised lineNumber funcName code msg value slots top).1 ≠ .return := by
  simp only [raised]
  split <;> exact fun h => nomatch h

/-- Unwinding for a return. -/
theorem Inv.unwindReturn {replies : Nat → Reply} {value : Var} (h : Inv s)
    (hsound : Sound lineNumber funcName s (.unwind .return value replies)) :
    Inv (unwindStack lineNumber funcName replies s.top .return value s) := by
  simp only [Sound, if_true] at hsound
  cases htop : s.top with
  | zero =>
      simp only [unwindStack]
      have hpop : Inv { s with top := 0 } := h.pop (Nat.zero_le _)
      split
      · exact hpop.modify 0 rfl rfl
      · exact ⟨hpop.framed, hpop.saved, hpop.own⟩
  | succ top =>
      have hle : top + 1 ≤ s.top := Nat.le_of_eq htop.symm
      simp only [unwindStack, if_true]
      split
      · exact (h.pop hle).modify (top + 1) rfl rfl
      next hnone =>
        have hpop : Inv { s with top } := h.pop (Nat.le_of_succ_le hle)
        split
        next hpend =>
          have hcaller : (s.slots (top + 1)).biFuncCaller = top :=
            Nat.succ.inj (h.framed (top + 1) hle hpend)
          rw [htop] at hsound
          have hreply := hsound top rfl hnone hpend
          -- the built-in is continued with the programmer of the top frame, its caller
          have hcont : Inv (({ s with top } : Vm).continueBiFunc top (s.slots top).progr) :=
            hpop.continueBiFunc rfl
          rw [hcaller]
          cases hr : replies (top + 1) with
          | «return» ret => exact hcont.push top ret
          | raise code msg value' =>
              rw [hr] at hreply
              simp only []
              split
              next hdebug =>
                exact hcont.unwindError top _ (raised_ne_return _ _ _ _ _) _ (Nat.le_refl top)
                  (hreply hdebug)
              next => exact hcont.push top code
          | call callee pc data next =>
              simp only [pushActivation_setPending]
              exact hcont.pushActivation fun _ => rfl
          | suspend e =>
              rw [hr] at hreply
              simp only []
              split
              · exact hcont.suspendTask
              next he =>
                exact hcont.unwindError top .raise (fun hw => nomatch hw) _ (Nat.le_refl top) (hreply he)
          | kill =>
              rw [hr] at hreply
              exact hcont.unwindError top .abort (fun hw => nomatch hw) _ (Nat.le_refl top) hreply
        next => exact hpop.push top value

/-! ## Runs -/

theorem Inv.raiseError {replies : Nat → Reply} {code : Var} {msg : Str} {value : Var} (h : Inv s)
    (hsame : let r := raised lineNumber funcName code msg value s.slots s.top
      SameProgr s replies s.top r.1 r.2) :
    Inv (raiseError lineNumber funcName replies code msg value s) :=
  h.unwindError s.top _ (raised_ne_return _ _ _ _ _) _ (Nat.le_refl _) hsame

theorem Inv.biFuncCall {id : Nat} {reply : Reply} {replies : Nat → Reply} (h : Inv s)
    (hsound : Sound lineNumber funcName s (.biFuncCall id reply replies)) :
    Inv (biFuncCall lineNumber funcName id reply replies s) := by
  cases reply with
  | «return» ret => exact h.push s.top ret
  | raise code msg value =>
      simp only [ActivStack.biFuncCall]
      split
      next hdebug => exact h.raiseError (hsound hdebug)
      next => exact h.push s.top code
  | call callee pc data next =>
      simp only [ActivStack.biFuncCall, pushActivation_setPending]
      exact h.pushActivation fun _ => rfl
  | suspend e =>
      simp only [ActivStack.biFuncCall]
      split
      · exact h.suspendTask
      next he =>
        split
        next hdebug => exact h.raiseError (hsound he hdebug)
        next => exact h.push s.top (.err e)
  | kill => exact h.unwindError s.top .abort (fun hw => nomatch hw) _ (Nat.le_refl _) hsound

theorem Inv.step {a : Action} {s' : Vm} (h : Inv s) (hsound : Sound lineNumber funcName s a)
    (hstep : Step lineNumber funcName s a s') : Inv s' := by
  cases hstep with
  | doTask root _ hroot =>
      refine ⟨?_, h.saved, h.own⟩
      intro k hk hpend
      have hk0 : k = 0 := Nat.le_zero.mp hk
      subst hk0
      rw [show ({ s.modify 0 (fun _ => root) with top := 0, running := true, outcome := none } : Vm).slots 0
        = root from modify_slots_self s 0 fun _ => root] at hpend
      exact absurd hroot hpend
  | exec rtStack pc errorPc => exact h.modify s.top rfl rfl
  | callVerb callee _ hcallee => exact h.pushActivation fun hpend => absurd hcallee hpend
  | biFuncCall id reply replies => exact h.biFuncCall hsound
  | setTaskPerms progr => exact h.modify s.top rfl rfl
  | raiseError code msg value replies => exact h.raiseError hsound
  | unwind why value replies _ hwhy =>
      by_cases hret : why = .return
      · subst hret
        exact h.unwindReturn hsound
      · simp only [Sound, if_neg hret] at hsound
        exact h.unwindError s.top why hret value (Nat.le_refl _) hsound
  | abortTask replies =>
      exact h.unwindError s.top .abort (fun hw => nomatch hw) zero (Nat.le_refl _) hsound
  | resume frames v _ hf => exact h.resume hf v

theorem Inv.init : Inv Vm.init where
  framed := fun _ _ hpend => absurd rfl hpend
  saved := fun _ hf => nomatch hf
  own := fun _ hc => nomatch hc

/-- In every run that discards, for an error or an abort, only frames that have
    the programmer of the frame that called the built-in pending on them, every
    call that continues a built-in function is made with the programmer of the
    frame that called it. -/
theorem continuations_keep_progr {as : List Action}
    (hrun : Runs.Run (Runs.guarded (Sound lineNumber funcName) (Step lineNumber funcName))
      Vm.init as s) :
    ∀ c ∈ s.log, c.progr = c.callerProgr :=
  (hrun.invariant (fun _ _ _ h hs => h.step hs.1 hs.2) Inv.init).own

end Steps

/-- A verb with programmer #10 calls a built-in function; the verb that the
    built-in calls, with programmer `owner`, raises an error, and the built-in is
    continued and returns. -/
def calleeRaises (owner : Objid) : List Action :=
  [.doTask { progr := 10 },
    .biFuncCall 0 (.call { progr := owner } 2 zero (.return zero)) (fun _ => .return zero),
    .raiseError (.err .ePerm) [] zero (fun _ => .return zero)]

/-- When the callee has the caller's programmer, so does the continuation. -/
theorem continuations_keep_progr_calleeRaises :
    ∃ s, Runs.Run (Runs.guarded (Sound (fun _ => 0) (fun _ => []))
        (Step (fun _ => 0) (fun _ => []))) Vm.init (calleeRaises 10) s ∧
      s.log = [⟨0, 10, 10⟩] ∧ ∀ c ∈ s.log, c.progr = c.callerProgr := by
  have hrun : ∃ s, Runs.Run (Runs.guarded (Sound (fun _ => 0) (fun _ => []))
      (Step (fun _ => 0) (fun _ => []))) Vm.init (calleeRaises 10) s ∧
      s.log = [⟨0, 10, 10⟩] := by
    refine ⟨_, .cons ⟨trivial, .doTask _ _ rfl rfl⟩ <|
      .cons ⟨trivial, .biFuncCall _ _ _ _ rfl⟩ <|
      .cons ⟨?_, .raiseError _ _ _ _ _ rfl⟩ (.nil _), ?_⟩
    · -- only frame 1 has a built-in pending on it, and it has frame 0's programmer
      intro k hk _ _
      have hk0 : k = 0 := Nat.lt_one_iff.mp hk
      subst hk0
      exact ⟨rfl, trivial⟩
    · decide
  obtain ⟨s, hs, hlog⟩ := hrun
  exact ⟨s, hs, hlog, continuations_keep_progr hs⟩

/-- When it has not, the built-in that #10 called is continued with the rights of
    the verb it called. -/
theorem continuation_takes_callee_progr :
    ∃ s, Runs.Run (Step (fun _ => 0) (fun _ => [])) Vm.init (calleeRaises 2) s ∧
      ∃ c ∈ s.log, c.callerProgr = 10 ∧ c.progr = 2 ∧ c.progr ≠ c.callerProgr := by
  have hrun : ∃ s, Runs.Run (Step (fun _ => 0) (fun _ => [])) Vm.init (calleeRaises 2) s ∧
      s.log = [⟨0, 10, 2⟩] := by
    refine ⟨_, .cons (.doTask _ _ rfl rfl) <| .cons (.biFuncCall _ _ _ _ rfl) <|
      .cons (.raiseError _ _ _ _ _ rfl) (.nil _), ?_⟩
    decide
  obtain ⟨s, hs, hlog⟩ := hrun
  exact ⟨s, hs, ⟨0, 10, 2⟩, by rw [hlog]; exact List.mem_singleton_self _, rfl, rfl, by decide⟩

end Waverous.ActivStack
