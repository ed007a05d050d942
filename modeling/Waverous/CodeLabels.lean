import Waverous.CodeGen
import Waverous.Lib.Links

/-! # Labels of the generator — `code_gen.c`

    Bytes and fixups are only added.  Of a fixup that is there only the value of a label can
    change, when the label is defined.  Whoever defines a label has made it, or got it from the
    loop that ends; so a function of the generator changes no fixup that is there, as long as
    the chains that it is given and those of the loops do not have it. -/

namespace Waverous

open Links

variable {α β : Type} {s s' s'' : GenState} {H : List Nat} {R : Nat → Prop}

/-- What of a fixup never changes. -/
def Fixup.shape (f : Fixup) : FixupKind × Nat × Option Nat := (f.kind, f.pc, f.next)

/-- The link of a label; other fixups have none. -/
def Fixup.link (f : Fixup) : Option (Option Nat) := if f.kind = .label then some f.next else none

/-- The links of labels. -/
def nextLabel (fixups : List Fixup) (l : Nat) : Option (Option Nat) := fixups[l]?.bind Fixup.link

theorem nextLabel_some {fixups : List Fixup} {l : Nat} {x : Option Nat} :
    nextLabel fixups l = some x ↔
      ∃ f : Fixup, fixups[l]? = some f ∧ f.kind = .label ∧ f.next = x := by
  rw [nextLabel, Option.bind_eq_some_iff]
  constructor
  · rintro ⟨f, hf, hlink⟩
    rw [Fixup.link] at hlink
    split at hlink
    next hkind => exact ⟨f, hf, hkind, Option.some.inj hlink⟩
    next => exact nomatch hlink
  · rintro ⟨f, hf, hkind, rfl⟩
    exact ⟨f, hf, if_pos hkind⟩

/-- How many fixups of a kind there are. -/
def countKind (fixups : List Fixup) (kind : FixupKind) : Nat :=
  fixups.countP fun f => decide (f.kind = kind)

theorem countKind_shape (fixups : List Fixup) (kind : FixupKind) : countKind fixups kind =
    (fixups.map Fixup.shape).countP fun x => decide (x.1 = kind) := by
  rw [countKind, List.countP_map]
  rfl

/-- The counter for a kind; `num_stacks` is never incremented. -/
def GenState.num (s : GenState) : FixupKind → Nat
  | .literal => s.numLiterals
  | .fork => s.numForks
  | .varRef => s.numVarRefs
  | .label => s.numLabels
  | .stack => s.numStacks

/-- Each fixup has a byte, in order, and the counters are right. -/
structure GenState.Tidy (s : GenState) : Prop where
  sorted : (s.fixups.map Fixup.pc).Pairwise (· < ·)
  placed : ∀ f ∈ s.fixups, f.pc < s.bytes.length
  counted : ∀ kind, kind ≠ .stack → s.num kind = countKind s.fixups kind
  stackCount : s.numStacks = 0
  tops : ∀ loop ∈ s.loops, loop.topLabel.kind = .label

/-- Bytes and fixups have been added. -/
structure Grown (s s' : GenState) : Prop where
  bytes : s.bytes <+: s'.bytes
  fixups : ∀ (j : Nat) (f : Fixup), s.fixups[j]? = some f →
    ∃ f' : Fixup, s'.fixups[j]? = some f' ∧ f'.shape = f.shape
  later : ∀ (j : Nat) (f : Fixup), s'.fixups[j]? = some f → s.fixups.length ≤ j → s.bytes.length ≤ f.pc

theorem Grown.refl (s : GenState) : Grown s s where
  bytes := List.prefix_rfl
  fixups _ f hf := ⟨f, hf, rfl⟩
  later j f hf hj := by
    rw [List.getElem?_eq_none hj] at hf
    exact nomatch hf

theorem Grown.trans (h : Grown s s') (h' : Grown s' s'') : Grown s s'' where
  bytes := h.bytes.trans h'.bytes
  fixups j f hf := by
    obtain ⟨f', hf', hshape⟩ := h.fixups j f hf
    obtain ⟨f'', hf'', hshape'⟩ := h'.fixups j f' hf'
    exact ⟨f'', hf'', hshape'.trans hshape⟩
  later j f hf hj := by
    by_cases hj' : s'.fixups.length ≤ j
    · exact Nat.le_trans h.bytes.length_le (h'.later j f hf hj')
    · have hget := List.getElem?_eq_getElem (Nat.lt_of_not_le hj')
      obtain ⟨f'', hf'', hshape⟩ := h'.fixups j _ hget
      rw [hf''] at hf
      cases hf
      have hpc : f.pc = s'.fixups[j].pc := congrArg (fun x => x.2.1) hshape
      rw [hpc]
      exact h.later j _ hget hj

theorem Grown.length (h : Grown s s') : s.fixups.length ≤ s'.fixups.length := by
  by_contra hlt
  have hget := List.getElem?_eq_getElem (Nat.lt_of_not_le hlt)
  obtain ⟨f', hf', -⟩ := h.fixups _ _ hget
  rw [List.getElem?_eq_none (Nat.le_refl _)] at hf'
  exact nomatch hf'

theorem Grown.next (h : Grown s s') : Extends (nextLabel s.fixups) (nextLabel s'.fixups) := by
  intro l x hx
  obtain ⟨f, hf, hkind, rfl⟩ := nextLabel_some.mp hx
  obtain ⟨f', hf', hshape⟩ := h.fixups l f hf
  have hkind' : f'.kind = f.kind := congrArg (fun x => x.1) hshape
  exact nextLabel_some.mpr ⟨f', hf', hkind'.trans hkind, congrArg (fun x => x.2.2) hshape⟩

/-! ## What is safe -/

/-- The chain of a loop has no fixup of `R`. -/
def Loop.Off (R : Nat → Prop) (fixups : List Fixup) (loop : Loop) : Prop :=
  ∀ b, loop.bottomLabel = some b → Links.Off (nextLabel fixups) R b

/-- The chain of a loop has the label `r`. -/
def Loop.On (r : Nat) (fixups : List Fixup) (loop : Loop) : Prop :=
  ∃ b, loop.bottomLabel = some b ∧ Links.On (nextLabel fixups) r b

/-- The fixups of `R` are as they were, and each loop has those of them that it had. -/
structure Safe (R : Nat → Prop) (s s' : GenState) : Prop where
  stays : ∀ r, R r → s'.fixups[r]? = s.fixups[r]?
  count : s'.loops.length = s.loops.length
  loops : ∀ (i : Nat) (loop : Loop), s.loops[i]? = some loop →
    ∃ loop' : Loop, s'.loops[i]? = some loop' ∧
    (loop.Off R s.fixups → loop'.Off R s'.fixups) ∧
    (∀ r, R r → loop.On r s.fixups → loop'.On r s'.fixups)

theorem Safe.trans (h : Safe R s s') (h' : Safe R s' s'') : Safe R s s'' where
  stays r hr := (h'.stays r hr).trans (h.stays r hr)
  count := h'.count.trans h.count
  loops i loop hi := by
    obtain ⟨loop', hi', hoff, hon⟩ := h.loops i loop hi
    obtain ⟨loop'', hi'', hoff', hon'⟩ := h'.loops i loop' hi'
    exact ⟨loop'', hi'', fun h => hoff' (hoff h), fun r hr h => hon' r hr (hon r hr h)⟩

/-- The loops are the same ones. -/
theorem Safe.sameLoops (hstays : ∀ r, R r → s'.fixups[r]? = s.fixups[r]?) (hloops : s'.loops = s.loops)
    (hg : Grown s s') : Safe R s s' where
  stays := hstays
  count := by rw [hloops]
  loops i loop hi := by
    refine ⟨loop, hloops ▸ hi, fun h b hb => (h b hb).extends hg.next, ?_⟩
    rintro r - ⟨b, hb, hon⟩
    exact ⟨b, hb, hon.extends hg.next⟩

/-- What has been done from `s` to `s'` with the labels `H`, giving the labels `out`. -/
structure Done (H : List Nat) (s s' : GenState) (out : List Nat) : Prop where
  tidy : s'.Tidy
  grown : Grown s s'
  safe : ∀ R : Nat → Prop, (∀ r, R r → r < s.fixups.length) →
    (∀ l ∈ H, Links.Off (nextLabel s.fixups) R l) →
    Safe R s s' ∧ ∀ l ∈ out, Links.Off (nextLabel s'.fixups) R l

/-- A function of the generator that is given the labels `H`, and gives the labels `out`. -/
def Does (H : List Nat) (m : Gen α) (out : α → List Nat) : Prop :=
  ∀ s a s', m s = some (a, s') → s.Tidy → Done H s s' (out a)

/-- No labels. -/
def noLabels (_ : α) : List Nat := []

theorem bind_eq_some {m : Gen α} {f : α → Gen β} {b : β} (h : (m >>= f) s = some (b, s'')) :
    ∃ a s', m s = some (a, s') ∧ f a s' = some (b, s'') := by
  have hrun : (m s).bind (fun p => f p.1 p.2) = some (b, s'') := h
  obtain ⟨⟨a, s'⟩, hm, hf⟩ := Option.bind_eq_some_iff.mp hrun
  exact ⟨a, s', hm, hf⟩

theorem Done.trans {o o' : List Nat} (h : Done H s s' o) (h' : Done (o ++ H) s' s'' o') :
    Done H s s'' o' where
  tidy := h'.tidy
  grown := h.grown.trans h'.grown
  safe R hR hH := by
    obtain ⟨hsafe, hout⟩ := h.safe R hR hH
    obtain ⟨hsafe', hout'⟩ := h'.safe R (fun r hr => Nat.lt_of_lt_of_le (hR r hr) h.grown.length) (by
      intro l hl
      rcases List.mem_append.mp hl with hl | hl
      · exact hout l hl
      · exact (hH l hl).extends h.grown.next)
    exact ⟨hsafe.trans hsafe', hout'⟩

/-- One function after the other. -/
theorem Does.bind {m : Gen α} {f : α → Gen β} {o : α → List Nat} {o' : β → List Nat}
    (h : Does H m o) (h' : ∀ a, Does (o a ++ H) (f a) o') : Does H (m >>= f) o' := by
  intro s b s'' hrun ht
  obtain ⟨a, s', hm, hf⟩ := bind_eq_some hrun
  have hdone := h s a s' hm ht
  exact hdone.trans (h' a s' b s'' hf hdone.tidy)

/-- One function after the other, when the first gives no labels. -/
theorem Does.seq {m : Gen α} {f : α → Gen β} {o' : β → List Nat} (h : Does H m noLabels)
    (h' : ∀ a, Does H (f a) o') : Does H (m >>= f) o' :=
  h.bind h'

/-- Labels that are not used. -/
theorem Does.mono {H' : List Nat} {m : Gen α} {o : α → List Nat} (h : Does H m o)
    (hsub : ∀ l ∈ H, l ∈ H') : Does H' m o := by
  intro s a s' hrun ht
  have hdone := h s a s' hrun ht
  exact ⟨hdone.tidy, hdone.grown, fun R hR hH => hdone.safe R hR fun l hl => hH l (hsub l hl)⟩

theorem Does.pure {a : α} {o : α → List Nat} (hsub : ∀ l ∈ o a, l ∈ H) :
    Does H (pure a : Gen α) o := by
  intro s b s' hrun ht
  cases hrun
  have hgrown := Grown.refl s
  exact ⟨ht, hgrown, fun R hR hH =>
    ⟨.sameLoops (fun _ _ => rfl) rfl hgrown, fun l hl => hH l (hsub l hl)⟩⟩

theorem Does.ite {c : Prop} [Decidable c] {m m' : Gen α} {o : α → List Nat} (h : Does H m o)
    (h' : Does H m' o) : Does H (if c then m else m') o := by
  split
  · exact h
  · exact h'

theorem does_panic {o : α → List Nat} : Does H (panic : Gen α) o := by
  intro s a s' hrun
  exact nomatch hrun

/-! ## Bytes and fixups -/

/-- Nothing is done to bytes, fixups and loops. -/
theorem Done.same (ht : s.Tidy) (hbytes : s'.bytes = s.bytes) (hfixups : s'.fixups = s.fixups)
    (hloops : s'.loops = s.loops) (hnum : s'.num = s.num) : Done H s s' [] := by
  have hgrown : Grown s s' := by
    constructor
    · exact hbytes ▸ List.prefix_rfl
    · intro j f hf
      exact ⟨f, by rw [hfixups, hf], rfl⟩
    · intro j f hf hj
      rw [hfixups, List.getElem?_eq_none hj] at hf
      exact nomatch hf
  refine ⟨?_, hgrown, fun R hR hH => ⟨.sameLoops (fun r _ => by rw [hfixups]) hloops hgrown, nofun⟩⟩
  constructor
  · rw [hfixups]
    exact ht.sorted
  · rw [hfixups, hbytes]
    exact ht.placed
  · rw [hnum, hfixups]
    exact ht.counted
  · exact (congrFun hnum .stack).trans ht.stackCount
  · rw [hloops]
    exact ht.tops

/-- Bytes, fixups, loops and counters stay as they are. -/
def Silent (m : Gen α) : Prop := ∀ s a s', m s = some (a, s') → s'.bytes = s.bytes ∧
  s'.fixups = s.fixups ∧ s'.loops = s.loops ∧ s'.num = s.num

theorem Silent.does {m : Gen α} (h : Silent m) : Does H m noLabels := by
  intro s a s' hrun ht
  obtain ⟨hbytes, hfixups, hloops, hnum⟩ := h s a s' hrun
  exact .same ht hbytes hfixups hloops hnum

theorem does_emitByte (b : UInt8) : Does H (emitByte b) noLabels := by
  intro s a s' hrun ht
  cases hrun
  have hgrown : Grown s { s with bytes := s.bytes ++ [b] } := by
    constructor
    · exact List.prefix_append _ _
    · exact fun j f hf => ⟨f, hf, rfl⟩
    · intro j f hf hj
      rw [List.getElem?_eq_none hj] at hf
      exact nomatch hf
  refine ⟨?_, hgrown, fun R hR hH => ⟨.sameLoops (fun _ _ => rfl) rfl hgrown, nofun⟩⟩
  constructor
  · exact ht.sorted
  · intro f hf
    have := ht.placed f hf
    show f.pc < (s.bytes ++ [b]).length
    rw [List.length_append]
    omega
  · exact ht.counted
  · exact ht.stackCount
  · exact ht.tops

theorem does_emitOp (op : Opcode) : Does H (emitOp op) noLabels := does_emitByte _

theorem does_emitExtended (op : ExtendedOpcode) : Does H (emitExtended op) noLabels :=
  (does_emitOp _).seq fun _ => does_emitByte _

/-- A fixup has been added, and counted. -/
theorem Done.fixup {f : Fixup} (ht : s.Tidy) (hbytes : s'.bytes = s.bytes ++ [0])
    (hfixups : s'.fixups = s.fixups ++ [{ f with pc := s.bytes.length }])
    (hloops : s'.loops = s.loops)
    (hnum : ∀ kind, kind ≠ .stack → s'.num kind = s.num kind + if f.kind = kind then 1 else 0)
    (hstacks : s'.numStacks = s.numStacks) : Done H s s' [] := by
  have hold : ∀ (j : Nat) (f : Fixup), s.fixups[j]? = some f → s'.fixups[j]? = some f := by
    intro j f hf
    obtain ⟨hlt, -⟩ := List.getElem?_eq_some_iff.mp hf
    rw [hfixups, List.getElem?_append_left hlt, hf]
  have hgrown : Grown s s' := by
    constructor
    · rw [hbytes]
      exact List.prefix_append _ _
    · exact fun j f hf => ⟨f, hold j f hf, rfl⟩
    · intro j f' hf hj
      rw [hfixups, List.getElem?_append_right hj] at hf
      obtain ⟨hlt, hget⟩ := List.getElem?_eq_some_iff.mp hf
      rw [List.length_singleton] at hlt
      simp only [Nat.lt_one_iff.mp hlt, List.getElem_cons_zero] at hget
      exact Nat.le_of_eq (congrArg Fixup.pc hget)
  refine ⟨?_, hgrown, fun R hR hH => ⟨.sameLoops (fun r hr => ?_) hloops hgrown, nofun⟩⟩
  · constructor
    · rw [hfixups, List.map_append, List.pairwise_append]
      refine ⟨ht.sorted, List.pairwise_singleton _ _, ?_⟩
      intro a ha b hb
      obtain ⟨f', hf', rfl⟩ := List.mem_map.mp ha
      rw [List.map_singleton, List.mem_singleton] at hb
      rw [hb]
      exact ht.placed f' hf'
    · intro f' hf'
      rw [hbytes, List.length_append, List.length_singleton]
      rw [hfixups, List.mem_append, List.mem_singleton] at hf'
      rcases hf' with hf' | rfl
      · have := ht.placed f' hf'
        omega
      · exact Nat.lt_succ_self _
    · intro kind hkind
      rw [hnum kind hkind, ht.counted kind hkind, hfixups, countKind, countKind, List.countP_append,
        List.countP_singleton]
      simp
    · rw [hstacks]
      exact ht.stackCount
    · rw [hloops]
      exact ht.tops
  · have hget := List.getElem?_eq_getElem (hR r hr)
    rw [hget, hold r _ hget]

/-- A label has been added, too. -/
theorem Done.label {f : Fixup} (h : Done H s s' []) (hkind : f.kind = .label)
    (hfixups : s'.fixups = s.fixups ++ [{ f with pc := s.bytes.length }])
    (hnext : ∀ n, f.next = some n → n ∈ H) : Done H s s' [s.fixups.length] := by
  refine ⟨h.tidy, h.grown, fun R hR hH => ⟨(h.safe R hR hH).1, ?_⟩⟩
  intro l hl
  rw [List.mem_singleton] at hl
  subst hl
  have hfree : ¬ R s.fixups.length := fun hr => Nat.lt_irrefl _ (hR _ hr)
  have hget : nextLabel s'.fixups s.fixups.length = some f.next := by
    rw [nextLabel_some]
    exact ⟨{ f with pc := s.bytes.length }, by rw [hfixups, List.getElem?_concat_length], hkind, rfl⟩
  cases hf : f.next with
  | none => exact .last (by rw [hget, hf]) hfree
  | some n => exact .link (by rw [hget, hf]) hfree ((hH n (hnext n hf)).extends h.grown.next)

theorem does_addLiteral (v : Var) : Does H (addLiteral v) noLabels := by
  intro s a s' hrun ht
  cases hrun
  refine Done.fixup ht rfl rfl rfl (fun kind hkind => ?_) rfl
  cases kind <;> rfl

theorem does_addFork (b : Bytecodes) : Does H (addFork b) noLabels := by
  intro s a s' hrun ht
  cases hrun
  refine Done.fixup ht rfl rfl rfl (fun kind hkind => ?_) rfl
  cases kind <;> rfl

theorem does_addVarRef (slot : Nat) : Does H (addVarRef slot) noLabels := by
  intro s a s' hrun ht
  cases hrun
  refine Done.fixup ht rfl rfl rfl (fun kind hkind => ?_) rfl
  cases kind <;> rfl

theorem does_addStackRef (index : Int) : Does H (addStackRef index) noLabels := by
  intro s a s' hrun ht
  cases hrun
  refine Done.fixup ht rfl rfl rfl (fun kind hkind => ?_) rfl
  cases kind with
  | stack => exact absurd rfl hkind
  | _ => rfl

/-- A new label. -/
theorem addLinkedLabel_spec {next : Option Nat} {l : Nat}
    (hrun : addLinkedLabel next s = some (l, s')) (ht : s.Tidy) :
    Done H s s' [] ∧ l = s.fixups.length ∧ s'.loops = s.loops ∧
      ∃ f : Fixup, f.kind = .label ∧ f.next = next ∧
        s'.fixups = s.fixups ++ [{ f with pc := s.bytes.length }] := by
  cases hrun
  refine ⟨Done.fixup ht rfl rfl rfl (fun kind hkind => ?_) rfl, rfl, rfl, _, ?_, ?_, rfl⟩
  · cases kind <;> rfl
  · rfl
  · rfl

theorem does_addLinkedLabel {next : Option Nat} (hnext : ∀ n, next = some n → n ∈ H) :
    Does H (addLinkedLabel next) fun l => [l] := by
  intro s l s' hrun ht
  obtain ⟨hdone, rfl, -, f, hkind, rfl, hfixups⟩ := addLinkedLabel_spec hrun ht (H := H)
  exact hdone.label hkind hfixups hnext

theorem does_addLabel : Does H addLabel fun l => [l] := does_addLinkedLabel nofun

theorem does_addPseudoLabel (value : Nat) : Does H (addPseudoLabel value) noLabels := by
  intro s a s' hrun ht
  cases hrun
  refine Done.fixup ht rfl rfl rfl (fun kind hkind => ?_) rfl
  cases kind <;> rfl

theorem does_addKnownLabel {f : Fixup} (hf : f.kind = .label) :
    Does H (addKnownLabel f) noLabels := by
  intro s a s' hrun ht
  cases hrun
  refine Done.fixup ht rfl rfl rfl (fun kind hkind => ?_) rfl
  rw [hf]
  cases kind <;> rfl

/-- A label that is captured. -/
theorem Does.capture {f : Fixup → Gen α} {o : α → List Nat}
    (h : ∀ top, top.kind = .label → Does H (f top) o) : Does H (captureLabel >>= f) o := by
  intro s a s' hrun ht
  obtain ⟨top, s1, htop, hrun⟩ := bind_eq_some hrun
  cases htop
  exact h _ rfl s a s' hrun ht

theorem silent_pushStack (n : Nat) : Silent (pushStack n) := fun _ _ _ hrun => by
  cases hrun
  exact ⟨rfl, rfl, rfl, rfl⟩

theorem silent_popStack (n : Nat) : Silent (popStack n) := fun _ _ _ hrun => by
  cases hrun
  exact ⟨rfl, rfl, rfl, rfl⟩

theorem silent_saveStackTop : Silent saveStackTop := fun _ _ _ hrun => by
  cases hrun
  exact ⟨rfl, rfl, rfl, rfl⟩

theorem silent_savedStackTop : Silent savedStackTop := fun _ _ _ hrun => by
  cases hrun
  exact ⟨rfl, rfl, rfl, rfl⟩

theorem silent_restoreStackTop (old : Int) : Silent (restoreStackTop old) := fun _ _ _ hrun => by
  cases hrun
  exact ⟨rfl, rfl, rfl, rfl⟩

theorem silent_curStackNow : Silent curStackNow := fun _ _ _ hrun => by
  cases hrun
  exact ⟨rfl, rfl, rfl, rfl⟩

theorem silent_captureLabel : Silent captureLabel := fun _ _ _ hrun => by
  cases hrun
  exact ⟨rfl, rfl, rfl, rfl⟩

theorem silent_forkVector (body : Gen Unit) : Silent (forkVector body) := fun s a s' hrun => by
  obtain ⟨⟨bc, gstate⟩, -, hrun⟩ := Option.bind_eq_some_iff.mp hrun
  cases hrun
  exact ⟨rfl, rfl, rfl, rfl⟩

theorem does_pushStack (n : Nat) : Does H (pushStack n) noLabels := (silent_pushStack n).does

theorem does_popStack (n : Nat) : Does H (popStack n) noLabels := (silent_popStack n).does

theorem does_saveStackTop : Does H saveStackTop noLabels := silent_saveStackTop.does

theorem does_savedStackTop : Does H savedStackTop noLabels := silent_savedStackTop.does

theorem does_restoreStackTop (old : Int) : Does H (restoreStackTop old) noLabels :=
  (silent_restoreStackTop old).does

theorem does_curStackNow : Does H curStackNow noLabels := silent_curStackNow.does

/-! ## Defining labels -/

theorem map_shape_modify (s : GenState) (fixups : List Fixup) (l : Nat) :
    (fixups.modify l s.here).map Fixup.shape = fixups.map Fixup.shape := by
  ext j : 1
  rw [List.getElem?_map, List.getElem?_map]
  by_cases hlj : l = j
  · rw [hlj, List.getElem?_modify_eq, Option.map_eq_map, Option.map_map]
    rfl
  · rw [List.getElem?_modify_ne _ _ hlj]

theorem map_shape_defineChain (s : GenState) {fuel : Nat} {label : Option Nat}
    {fixups : List Fixup} :
    (defineChain s fuel label fixups).map Fixup.shape = fixups.map Fixup.shape := by
  induction fuel generalizing label fixups with
  | zero => rfl
  | succ fuel ih =>
      cases label with
      | none => rfl
      | some l => rw [defineChain, ih, map_shape_modify]

/-- The links are part of the shapes. -/
theorem nextLabel_congr {fixups fixups' : List Fixup}
    (h : fixups.map Fixup.shape = fixups'.map Fixup.shape) :
    nextLabel fixups = nextLabel fixups' := by
  funext j
  have := congrArg (fun shapes : List (FixupKind × Nat × Option Nat) =>
    (shapes[j]?).bind fun x => if x.1 = .label then some x.2.2 else none) h
  simp only [List.getElem?_map, Option.bind_map] at this
  exact this

theorem nextLabel_modify (s : GenState) (fixups : List Fixup) (l : Nat) :
    nextLabel (fixups.modify l s.here) = nextLabel fixups :=
  nextLabel_congr (map_shape_modify s fixups l)

/-- What is not in the chain is as it was. -/
theorem getElem?_defineChain_off (s : GenState) {fuel : Nat} {label : Option Nat}
    {fixups : List Fixup} (h : ∀ b, label = some b → Links.Off (nextLabel fixups) R b) {r : Nat}
    (hr : R r) : (defineChain s fuel label fixups)[r]? = fixups[r]? := by
  induction fuel generalizing label fixups with
  | zero => rfl
  | succ fuel ih =>
      cases label with
      | none => rfl
      | some l =>
          have hoff := h l rfl
          have hne : l ≠ r := fun heq => hoff.not (heq ▸ hr)
          rw [defineChain, ih, List.getElem?_modify_ne _ _ hne]
          intro b hb
          rw [nextLabel_modify]
          cases hoff with
          | last hnext _ =>
              obtain ⟨f, hf, -, hn⟩ := nextLabel_some.mp hnext
              rw [hf, Option.bind_some, hn] at hb
              exact nomatch hb
          | link hnext _ hrest =>
              obtain ⟨f, hf, -, hn⟩ := nextLabel_some.mp hnext
              rw [hf, Option.bind_some, hn] at hb
              cases hb
              exact hrest

/-- What is defined remains defined. -/
theorem getElem?_defineChain_here (s : GenState) {fuel : Nat} {label : Option Nat}
    {fixups : List Fixup} {r : Nat} {f : Fixup} (hr : fixups[r]? = some (s.here f)) :
    (defineChain s fuel label fixups)[r]? = some (s.here f) := by
  induction fuel generalizing label fixups with
  | zero => exact hr
  | succ fuel ih =>
      cases label with
      | none => exact hr
      | some l =>
          rw [defineChain]
          refine ih ?_
          by_cases hlr : l = r
          · rw [hlr, List.getElem?_modify_eq, hr]
            rfl
          · rw [List.getElem?_modify_ne _ _ hlr, hr]

/-- What is in the chain is defined. -/
theorem getElem?_defineChain_on (s : GenState) {fuel l r : Nat} {fixups : List Fixup} {f : Fixup}
    (h : Links.On (nextLabel fixups) r l) (hl : l < fuel) (hr : fixups[r]? = some f) :
    (defineChain s fuel (some l) fixups)[r]? = some (s.here f) := by
  induction fuel generalizing l fixups with
  | zero => exact absurd hl (Nat.not_lt_zero l)
  | succ fuel ih =>
      rw [defineChain]
      by_cases hlr : l = r
      · subst hlr
        refine getElem?_defineChain_here s ?_
        rw [List.getElem?_modify_eq, hr]
        rfl
      · cases h with
        | here _ => exact absurd rfl hlr
        | link hnext hn hrest =>
            obtain ⟨f', hf', -, hnext⟩ := nextLabel_some.mp hnext
            rw [hf', Option.bind_some, hnext]
            refine ih ?_ (by omega) ?_
            · rw [nextLabel_modify]
              exact hrest
            · rw [List.getElem?_modify_ne _ _ hlr, hr]

/-- Defining a label that is not in the chain of a fixup leaves it alone. -/
theorem does_defineLabel {label : Option Nat} (hlabel : ∀ n, label = some n → n ∈ H) :
    Does H (defineLabel label) noLabels := by
  intro s a s' hrun ht
  cases hrun
  have hmap : (defineChain s s.fixups.length label s.fixups).map Fixup.shape =
      s.fixups.map Fixup.shape := map_shape_defineChain s
  show Done H s { s with fixups := defineChain s s.fixups.length label s.fixups } []
  generalize hF : defineChain s s.fixups.length label s.fixups = F at hmap ⊢
  have hlen : F.length = s.fixups.length := by
    rw [← List.length_map (f := Fixup.shape), hmap, List.length_map]
  have hget : ∀ (j : Nat) (f : Fixup), F[j]? = some f →
      ∃ f' : Fixup, s.fixups[j]? = some f' ∧ f'.shape = f.shape := by
    intro j f hf
    have hj : (F.map Fixup.shape)[j]? = some f.shape := by rw [List.getElem?_map, hf]; rfl
    rw [hmap, List.getElem?_map] at hj
    exact Option.map_eq_some_iff.mp hj
  have hgrown : Grown s { s with fixups := F } := by
    constructor
    · exact List.prefix_rfl
    · intro j f hf
      have hj : (s.fixups.map Fixup.shape)[j]? = some f.shape := by rw [List.getElem?_map, hf]; rfl
      rw [← hmap, List.getElem?_map] at hj
      exact Option.map_eq_some_iff.mp hj
    · intro j f hf hj
      rw [List.getElem?_eq_none (hlen ▸ hj)] at hf
      exact nomatch hf
  refine ⟨?_, hgrown, fun R hR hH => ⟨.sameLoops (fun r hr => ?_) rfl hgrown, nofun⟩⟩
  · constructor
    · have hpcs : F.map Fixup.pc = s.fixups.map Fixup.pc := by
        have := congrArg (List.map fun x : FixupKind × Nat × Option Nat => x.2.1) hmap
        simp only [List.map_map] at this
        exact this
      show (F.map Fixup.pc).Pairwise (· < ·)
      rw [hpcs]
      exact ht.sorted
    · intro f hf
      obtain ⟨j, hj⟩ := List.getElem?_of_mem hf
      obtain ⟨f', hf', hshape⟩ := hget j f hj
      have hpc : f'.pc = f.pc := congrArg (fun x => x.2.1) hshape
      rw [← hpc]
      exact ht.placed f' (List.mem_of_getElem? hf')
    · intro kind hkind
      show s.num kind = countKind F kind
      rw [countKind_shape, hmap, ← countKind_shape, ht.counted kind hkind]
    · exact ht.stackCount
    · exact ht.tops
  · show F[r]? = s.fixups[r]?
    rw [← hF]
    exact getElem?_defineChain_off s (fun b hb => hH b (hlabel b hb)) hr

/-! ## Loops -/

/-- A loop is entered and left; the chain that its end gives is that of its own label. -/
theorem Done.loop {s2 s3 : GenState} {new : Loop} {b : Option Nat}
    (h : Done H { s with loops := new :: s.loops } s2 [])
    (hexit : exitLoop s2 = some (b, s3)) (hnew : ∀ n, new.bottomLabel = some n → n ∈ H) :
    Done H s s3 b.toList := by
  rw [exitLoop] at hexit
  split at hexit
  next loop rest hloops =>
    cases hexit
    refine ⟨?_, ⟨h.grown.bytes, h.grown.fixups, h.grown.later⟩, fun R hR hH => ?_⟩
    · exact ⟨h.tidy.sorted, h.tidy.placed, h.tidy.counted, h.tidy.stackCount, fun loop' hmem =>
        h.tidy.tops loop' (hloops ▸ List.mem_cons_of_mem _ hmem)⟩
    · obtain ⟨hsafe, -⟩ := h.safe R hR hH
      refine ⟨⟨hsafe.stays, ?_, fun i loop' hi => ?_⟩, fun l hl => ?_⟩
      · have hcount := hsafe.count
        rw [hloops] at hcount
        exact Nat.succ.inj hcount
      · obtain ⟨loop'', hi'', hkept⟩ := hsafe.loops (i + 1) loop' hi
        rw [hloops] at hi''
        exact ⟨loop'', hi'', hkept⟩
      · obtain ⟨loop'', hi'', hoff, -⟩ := hsafe.loops 0 new rfl
        rw [hloops] at hi''
        cases hi''
        exact hoff (fun n hn => hH n (hnew n hn)) l (Option.mem_toList.mp hl)
  next => exact nomatch hexit

theorem GenState.Tidy.enter (ht : s.Tidy) (loop : Loop) (htop : loop.topLabel.kind = .label) :
    ({ s with loops := loop :: s.loops } : GenState).Tidy :=
  ⟨ht.sorted, ht.placed, ht.counted, ht.stackCount, fun loop' hmem => by
    rcases List.mem_cons.mp hmem with rfl | hmem
    · exact htop
    · exact ht.tops loop' hmem⟩

theorem Does.loop {id topStack bottomStack : Int} {top : Fixup} {label : Option Nat} {body : Gen Unit}
    {k : Option Nat → Gen β} {o : β → List Nat} (hlabel : ∀ n, label = some n → n ∈ H)
    (htop : top.kind = .label) (hbody : Does H body noLabels)
    (hk : ∀ b : Option Nat, Does (b.toList ++ H) (k b) o) :
    Does H (do
      enterLoop id top topStack label bottomStack
      body
      let b ← exitLoop
      k b) o := by
  intro s a s' hrun ht
  obtain ⟨_, s1, henter, hrun⟩ := bind_eq_some hrun
  cases henter
  obtain ⟨_, s2, hrun2, hrun⟩ := bind_eq_some hrun
  obtain ⟨b, s3, hexit, hrun⟩ := bind_eq_some hrun
  have ht1 := ht.enter ⟨id, top, topStack, label, bottomStack⟩ htop
  have hloop := (hbody _ _ _ hrun2 ht1).loop hexit hlabel
  exact hloop.trans (hk b s3 a s' hrun hloop.tidy)

/-! ## Expressions -/

theorem does_emitVarOp (op : Opcode) (slot : Nat) : Does H (emitVarOp op slot) noLabels :=
  .ite ((does_emitByte _).seq fun _ => does_addVarRef _) (does_emitByte _)

theorem BinaryKind.does_emit (kind : BinaryKind) : Does H kind.emit noLabels := by
  cases kind
  case exp => exact does_emitExtended _
  all_goals exact does_emitOp _

theorem does_generateVar (v : Var) : Does H (generateVar v) noLabels := by
  have himm : ∀ v : Var, Does H (do emitOp .imm; addLiteral v) noLabels :=
    fun v => (does_emitOp _).seq fun _ => does_addLiteral v
  have hvar : Does H (generateVar.emitVar v) noLabels := by
    cases v with
    | int num => exact .ite (does_emitByte _) (himm _)
    | _ => exact himm _
  exact hvar.seq fun _ => does_pushStack 1

theorem does_emitArg (first : Bool) (kind : ArgKind) : Does H (emitArg first kind) noLabels := by
  cases kind with
  | normal => exact does_emitOp _
  | splice => exact does_emitOp _

theorem does_putLvalue : ∀ e : Expr, Does H (putLvalue e) noLabels
  | .range base _ _ =>
      (does_emitExtended _).seq fun _ => (does_popStack 3).seq fun _ => does_putLvalue base
  | .index lhs _ => (does_emitOp _).seq fun _ => (does_popStack 2).seq fun _ => does_putLvalue lhs
  | .id _ => does_emitVarOp _ _
  | .prop _ _ => (does_emitOp _).seq fun _ => does_popStack 2
  | .var _ | .and _ _ | .or _ _ | .negate _ | .not _ | .binary _ _ _ | .length | .list _ | .call _ _
  | .verb _ _ _ | .cond _ _ _ | .asgn _ _ | .catch _ _ _ | .scatter _ => does_panic

theorem does_whenIndexed (e : Expr) {emit : Gen Unit} (h : Does H emit noLabels) :
    Does H (whenIndexed e emit) noLabels := by
  cases e
  case range => exact h
  case index => exact h
  all_goals exact .pure nofun

theorem mem_newLabels {l : Nat} {labels : List Nat} : ∀ n ∈ l :: labels, n ∈ labels ++ ([l] ++ H) := by
  intro n hn
  rcases List.mem_cons.mp hn with rfl | hn
  · exact List.mem_append_right _ List.mem_cons_self
  · exact List.mem_append_left _ hn

/-- The labels of the targets are new. -/
theorem does_emitTargets : ∀ sc : Scatter, ∀ {H : List Nat}, Does H (emitTargets sc) id
  | .nil, _ => .pure nofun
  | .cons .optional _ (some _) next, _ =>
      (does_addVarRef _).seq fun _ => does_addLabel.bind fun _ => (does_emitTargets next).bind fun _ =>
        .pure mem_newLabels
  | .cons .optional _ none next, _ =>
      (does_addVarRef _).seq fun _ => (does_addPseudoLabel 1).seq fun _ => does_emitTargets next
  | .cons .required _ _ next, _ | .cons .rest _ _ next, _ =>
      (does_addVarRef _).seq fun _ => (does_addPseudoLabel 0).seq fun _ => does_emitTargets next

theorem does_emitScatter (sc : Scatter) : Does H (emitScatter sc) id :=
  (does_emitExtended _).seq fun _ => (does_emitByte _).seq fun _ => (does_emitByte _).seq fun _ =>
    (does_emitByte _).seq fun _ => does_emitTargets sc

theorem does_emitCodes {codes : ArgList} {argList : Gen Unit} (h : Does H argList noLabels) :
    Does H (emitCodes codes argList) noLabels := by
  cases codes with
  | nil => exact (does_emitByte _).seq fun _ => does_pushStack 1
  | cons => exact h

theorem does_generateLength : Does H generateLength noLabels :=
  does_savedStackTop.seq fun _ => .ite does_panic
    ((does_emitExtended _).seq fun _ => (does_addStackRef _).seq fun _ => does_pushStack 1)

theorem does_define {l : Nat} (h : l ∈ H) : Does H (defineLabel (some l)) noLabels :=
  does_defineLabel fun n hn => by
    cases hn
    exact h

theorem generateExpr_asgn {e rhs : Expr} (hne : ∀ sc, e ≠ .scatter sc) :
    generateExpr (.asgn e rhs) = (do
      pushLvalue e false
      generateExpr rhs
      whenIndexed e (emitOp .putTemp)
      putLvalue e
      whenIndexed e (do emitOp .pop; emitOp .pushTemp)) := by
  cases e
  case scatter sc => exact absurd rfl (hne sc)
  all_goals rfl

theorem does_asgn {e rhs : Expr} (hne : ∀ sc, e ≠ .scatter sc)
    (hpush : Does H (pushLvalue e false) noLabels) (hrhs : Does H (generateExpr rhs) noLabels) :
    Does H (generateExpr (.asgn e rhs)) noLabels := by
  rw [generateExpr_asgn hne]
  exact hpush.seq fun _ => hrhs.seq fun _ => (does_whenIndexed e (does_emitOp _)).seq fun _ =>
    (does_putLvalue e).seq fun _ =>
      does_whenIndexed e ((does_emitOp _).seq fun _ => does_emitOp _)

/-- The labels of the targets are for those with a default. -/
theorem tail_sub {labels : List Nat} : ∀ l ∈ labels.tail, l ∈ labels := fun _ hl => List.mem_of_mem_tail hl

mutual

theorem does_generateExpr : ∀ e : Expr, ∀ {H : List Nat}, Does H (generateExpr e) noLabels
  | .var v, _ => does_generateVar v
  | .id _, _ => (does_emitVarOp _ _).seq fun _ => does_pushStack 1
  | .and lhs rhs, _ =>
      (does_generateExpr lhs).seq fun _ => (does_emitOp _).seq fun _ => does_addLabel.bind fun _ =>
        (does_popStack 1).seq fun _ => (does_generateExpr rhs).seq fun _ => does_define (by simp)
  | .or lhs rhs, _ =>
      (does_generateExpr lhs).seq fun _ => (does_emitOp _).seq fun _ => does_addLabel.bind fun _ =>
        (does_popStack 1).seq fun _ => (does_generateExpr rhs).seq fun _ => does_define (by simp)
  | .negate e, _ => (does_generateExpr e).seq fun _ => does_emitOp _
  | .not e, _ => (does_generateExpr e).seq fun _ => does_emitOp _
  | .binary kind lhs rhs, _ =>
      (does_generateExpr lhs).seq fun _ => (does_generateExpr rhs).seq fun _ =>
        kind.does_emit.seq fun _ => does_popStack 1
  | .prop lhs rhs, _ =>
      (does_generateExpr lhs).seq fun _ => (does_generateExpr rhs).seq fun _ =>
        (does_emitOp _).seq fun _ => does_popStack 1
  | .index lhs rhs, _ =>
      (does_generateExpr lhs).seq fun _ => does_saveStackTop.seq fun _ =>
        (does_generateExpr rhs).seq fun _ => (does_restoreStackTop _).seq fun _ =>
          (does_emitOp _).seq fun _ => does_popStack 1
  | .range base from' to', _ =>
      (does_generateExpr base).seq fun _ => does_saveStackTop.seq fun _ =>
        (does_generateExpr from').seq fun _ => (does_generateExpr to').seq fun _ =>
          (does_restoreStackTop _).seq fun _ => (does_emitOp _).seq fun _ => does_popStack 2
  | .length, _ => does_generateLength
  | .list args, _ => does_generateArgList args true
  | .call _ args, _ =>
      (does_generateArgList args true).seq fun _ => (does_emitOp _).seq fun _ => does_emitByte _
  | .verb obj verb args, _ =>
      (does_generateExpr obj).seq fun _ => (does_generateExpr verb).seq fun _ =>
        (does_generateArgList args true).seq fun _ => (does_emitOp _).seq fun _ => does_popStack 2
  | .cond condition consequent alternate, _ =>
      (does_generateExpr condition).seq fun _ => (does_emitOp _).seq fun _ =>
        does_addLabel.bind fun _ => (does_popStack 1).seq fun _ =>
          (does_generateExpr consequent).seq fun _ => (does_emitOp _).seq fun _ =>
            does_addLabel.bind fun _ => (does_popStack 1).seq fun _ =>
              (does_define (by simp)).seq fun _ => (does_generateExpr alternate).seq fun _ =>
                does_define (by simp)
  | .asgn (.scatter sc) rhs, _ =>
      (does_generateExpr rhs).seq fun _ => (does_emitScatter sc).bind fun _ =>
        does_addLabel.bind fun _ => ((does_generateDefaults sc _).mono fun _ hl =>
          List.mem_append_right _ (List.mem_append_left _ hl)).seq fun _ =>
          does_define (by simp)
  | .asgn (.range base from' to') rhs, _ =>
      does_asgn nofun (does_pushLvalue (.range base from' to') false) (does_generateExpr rhs)
  | .asgn (.index lhs i) rhs, _ =>
      does_asgn nofun (does_pushLvalue (.index lhs i) false) (does_generateExpr rhs)
  | .asgn (.id i) rhs, _ => does_asgn nofun (does_pushLvalue (.id i) false) (does_generateExpr rhs)
  | .asgn (.prop lhs i) rhs, _ =>
      does_asgn nofun (does_pushLvalue (.prop lhs i) false) (does_generateExpr rhs)
  | .asgn (.var _) rhs, _ | .asgn (.and _ _) rhs, _ | .asgn (.or _ _) rhs, _
  | .asgn (.negate _) rhs, _ | .asgn (.not _) rhs, _ | .asgn (.binary _ _ _) rhs, _
  | .asgn .length rhs, _ | .asgn (.list _) rhs, _ | .asgn (.call _ _) rhs, _
  | .asgn (.verb _ _ _) rhs, _ | .asgn (.cond _ _ _) rhs, _ | .asgn (.asgn _ _) rhs, _
  | .asgn (.catch _ _ _) rhs, _ => does_asgn nofun does_panic (does_generateExpr rhs)
  | .catch e codes except, _ =>
      (does_emitCodes (does_generateArgList codes true)).seq fun _ => (does_emitExtended _).seq fun _ =>
        does_addLabel.bind fun _ => (does_pushStack 1).seq fun _ => (does_emitExtended _).seq fun _ =>
          (does_pushStack 1).seq fun _ => (does_generateExpr e).seq fun _ =>
            (does_emitExtended _).seq fun _ => does_addLabel.bind fun _ => (does_popStack 3).seq fun _ =>
              (does_define (by simp)).seq fun _ => (does_generateExcept except).seq fun _ =>
                does_define (by simp)
  | .scatter _, _ => does_panic

theorem does_generateExcept : ∀ except : Option Expr, ∀ {H : List Nat},
    Does H (generateExcept except) noLabels
  | some e, _ =>
      (does_emitOp _).seq fun _ => (does_popStack 1).seq fun _ => does_generateExpr e
  | none, _ => (does_emitByte _).seq fun _ => does_emitOp _

theorem does_pushLvalue : ∀ (e : Expr) (above : Bool) {H : List Nat},
    Does H (pushLvalue e above) noLabels
  | .range base from' to', _, _ =>
      (does_pushLvalue base true).seq fun _ => does_saveStackTop.seq fun _ =>
        (does_generateExpr from').seq fun _ => (does_generateExpr to').seq fun _ =>
          does_restoreStackTop _
  | .index lhs rhs, _, _ =>
      (does_pushLvalue lhs true).seq fun _ => does_saveStackTop.seq fun _ =>
        (does_generateExpr rhs).seq fun _ => (does_restoreStackTop _).seq fun _ =>
          .ite ((does_emitOp _).seq fun _ => does_pushStack 1) (.pure nofun)
  | .id _, _, _ => .ite ((does_emitVarOp _ _).seq fun _ => does_pushStack 1) (.pure nofun)
  | .prop lhs rhs, _, _ =>
      (does_generateExpr lhs).seq fun _ => (does_generateExpr rhs).seq fun _ =>
        .ite ((does_emitOp _).seq fun _ => does_pushStack 1) (.pure nofun)
  | .var _, _, _ | .and _ _, _, _ | .or _ _, _, _ | .negate _, _, _ | .not _, _, _ | .binary _ _ _, _, _
  | .length, _, _ | .list _, _, _ | .call _ _, _, _ | .verb _ _ _, _, _ | .cond _ _ _, _, _
  | .asgn _ _, _, _ | .catch _ _ _, _, _ | .scatter _, _, _ => does_panic

theorem does_generateArgList : ∀ (args : ArgList) (first : Bool) {H : List Nat},
    Does H (generateArgList args first) noLabels
  | .nil, _, _ => .ite ((does_emitOp _).seq fun _ => does_pushStack 1) (.pure nofun)
  | .cons kind e next, first, _ =>
      (does_generateExpr e).seq fun _ => (does_emitArg first kind).seq fun _ =>
        (does_popStack _).seq fun _ => does_generateArgList next false

/-- The defaults are at the labels that they are given. -/
theorem does_generateDefaults : ∀ (sc : Scatter) (labels : List Nat),
    Does labels (generateDefaults sc labels) noLabels
  | .nil, _ => .pure nofun
  | .cons .optional _ (some e) next, labels =>
      (does_defineLabel fun _ hn => List.mem_of_mem_head? hn).seq fun _ => (does_generateExpr e).seq fun _ =>
        (does_emitVarOp _ _).seq fun _ => (does_emitOp _).seq fun _ => (does_popStack 1).seq fun _ =>
          (does_generateDefaults next labels.tail).mono tail_sub
  | .cons .optional _ none next, labels | .cons .required _ _ next, labels
  | .cons .rest _ _ next, labels => does_generateDefaults next labels

end

/-! ## Statements -/

theorem does_forkVector (body : Gen Unit) : Does H (forkVector body) noLabels :=
  (silent_forkVector body).does

theorem does_whenId (id : Int) {emit : Nat → Gen Unit} (h : ∀ slot, Does H (emit slot) noLabels) :
    Does H (whenId id emit) noLabels :=
  .ite (h _) (.pure nofun)

theorem does_emitWhile (id : Int) : Does H (emitWhile id) noLabels :=
  .ite (does_emitOp _) ((does_emitExtended _).seq fun _ => does_addVarRef _)

theorem does_emitExit (exit : Int) : Does H (emitExit exit) noLabels :=
  .ite (does_emitExtended _) ((does_emitExtended _).seq fun _ => does_addVarRef _)

theorem does_jumpToEnd (next : ExceptArm) (endLabel : Option Nat) :
    Does endLabel.toList (jumpToEnd next endLabel) Option.toList := by
  cases next with
  | nil => exact .pure fun _ hl => hl
  | cons =>
      refine (does_emitOp _).seq fun _ =>
        (does_addLinkedLabel fun n hn => by rw [hn]; exact List.mem_singleton_self n).bind fun l => ?_
      exact .pure fun l hl => List.mem_append_left _ hl

theorem does_generateCodes (codes : ArgList) : Does H (generateCodes codes) noLabels :=
  does_emitCodes (does_generateArgList codes true)

/-- The loop that is left is there; only the opcode has been emitted. -/
theorem findExit_run {exit : Int} {i : Nat} {loop : Loop}
    (hrun : findExit exit s = some ((i, loop), s')) :
    emitExit exit s = some ((), s') ∧ s'.loops[i]? = some loop := by
  obtain ⟨_, s1, hemit, hrun⟩ := bind_eq_some hrun
  obtain ⟨_, s2, hget, hrun⟩ := bind_eq_some hrun
  cases hget
  cases hi : exitedLoop exit s1.loops with
  | none =>
      simp only [hi] at hrun
      exact nomatch hrun
  | some j =>
      cases hj : s1.loops[j]? with
      | none =>
          simp only [hi, hj] at hrun
          exact nomatch hrun
      | some loop' =>
          simp only [hi, hj] at hrun
          cases hrun
          exact ⟨hemit, hj⟩

theorem findExit_spec {exit : Int} {i : Nat} {loop : Loop} (hrun : findExit exit s = some ((i, loop), s'))
    (ht : s.Tidy) : Done H s s' [] ∧ s'.loops[i]? = some loop :=
  ⟨does_emitExit exit s _ s' (findExit_run hrun).1 ht, (findExit_run hrun).2⟩

theorem does_continue (exit : Int) : Does H (generateStmt (.continue exit)) noLabels := by
  intro s a s' hrun ht
  obtain ⟨⟨i, loop⟩, s1, hfind, hrun⟩ := bind_eq_some hrun
  obtain ⟨hdone, hloop⟩ := findExit_spec hfind ht (H := H)
  have htop := hdone.tidy.tops loop (List.mem_of_getElem? hloop)
  have hrest : Does H (do
      addStackRef loop.topStack
      let _ ← addKnownLabel loop.topLabel
      pure ()) noLabels :=
    (does_addStackRef _).seq fun _ => (does_addKnownLabel htop).seq fun _ => .pure nofun
  exact hdone.trans (hrest s1 a s' hrun hdone.tidy)

/-- The label of a `break` comes before the chain of the loop that it leaves. -/
theorem Done.pushExit {f : Fixup} {i : Nat} {loop : Loop} (h : Done H s s' []) (hkind : f.kind = .label)
    (hfixups : s'.fixups = s.fixups ++ [{ f with pc := s.bytes.length }]) (hloops : s'.loops = s.loops)
    (hloop : s.loops[i]? = some loop) (hnext : f.next = loop.bottomLabel) :
    Done H s { s' with loops := s'.loops.modify i fun loop =>
      { loop with bottomLabel := some s.fixups.length } } [] := by
  have hget : nextLabel s'.fixups s.fixups.length = some loop.bottomLabel := by
    rw [nextLabel_some]
    exact ⟨{ f with pc := s.bytes.length }, by rw [hfixups, List.getElem?_concat_length], hkind, hnext⟩
  refine ⟨?_, ⟨h.grown.bytes, h.grown.fixups, h.grown.later⟩, fun R hR hH => ?_⟩
  · refine ⟨h.tidy.sorted, h.tidy.placed, h.tidy.counted, h.tidy.stackCount, fun loop' hmem => ?_⟩
    obtain ⟨j, hj⟩ := List.getElem?_of_mem hmem
    by_cases hij : i = j
    · rw [hij, List.getElem?_modify_eq] at hj
      obtain ⟨loop'', hj', rfl⟩ := Option.map_eq_some_iff.mp hj
      exact h.tidy.tops loop'' (List.mem_of_getElem? hj')
    · rw [List.getElem?_modify_ne _ _ hij] at hj
      exact h.tidy.tops loop' (List.mem_of_getElem? hj)
  · obtain ⟨hsafe, -⟩ := h.safe R hR hH
    have hfree : ¬ R s.fixups.length := fun hr => Nat.lt_irrefl _ (hR _ hr)
    refine ⟨⟨hsafe.stays, ?_, fun j loop' hj => ?_⟩, nofun⟩
    · rw [← hsafe.count, List.length_modify]
    · by_cases hij : i = j
      · subst hij
        rw [hloop] at hj
        cases hj
        refine ⟨{ loop with bottomLabel := some s.fixups.length }, ?_, fun hoff => ?_, ?_⟩
        · rw [List.getElem?_modify_eq, hloops, hloop]
          rfl
        · rintro b ⟨⟩
          cases hb : loop.bottomLabel with
          | none => exact .last (by rw [hget, hb]) hfree
          | some n => exact .link (by rw [hget, hb]) hfree ((hoff n hb).extends h.grown.next)
        · rintro r - ⟨n, hb, hon⟩
          refine ⟨_, rfl, .link (by rw [hget, hb]) ?_ (hon.extends h.grown.next)⟩
          obtain ⟨x, hx⟩ := Option.isSome_iff_exists.mp hon.isSome
          obtain ⟨f', hf', -⟩ := nextLabel_some.mp hx
          exact (List.getElem?_eq_some_iff.mp hf').1
      · obtain ⟨loop'', hj', hkept⟩ := hsafe.loops j loop' hj
        refine ⟨loop'', ?_, hkept⟩
        rw [List.getElem?_modify_ne _ _ hij, hj']

theorem does_break (exit : Int) : Does H (generateStmt (.break exit)) noLabels := by
  intro s a s' hrun ht
  obtain ⟨⟨i, loop⟩, s1, hfind, hrun⟩ := bind_eq_some hrun
  obtain ⟨hdone, hloop⟩ := findExit_spec hfind ht (H := H)
  refine hdone.trans ?_
  obtain ⟨_, s2, hstack, hrun⟩ := bind_eq_some hrun
  have hdone2 := does_addStackRef loop.bottomStack s1 _ s2 hstack hdone.tidy (H := H)
  refine hdone2.trans ?_
  have hloop2 : s2.loops[i]? = some loop := by
    cases hstack
    exact hloop
  obtain ⟨l, s3, hlabel, hrun⟩ := bind_eq_some hrun
  obtain ⟨hdone3, rfl, hloops, f, hkind, hnext, hfixups⟩ := addLinkedLabel_spec hlabel hdone2.tidy (H := H)
  cases hrun
  exact hdone3.pushExit hkind hfixups hloops hloop2 hnext

/-- The label that has just been given is defined. -/
theorem does_defineGiven (b : Option Nat) : Does (b.toList ++ H) (defineLabel b) noLabels :=
  does_defineLabel fun _ hn => List.mem_append_left _ (Option.mem_toList.mpr hn)

/-- The end of a loop: back to its top, and past it. -/
theorem does_endLoop {top : Fixup} (htop : top.kind = .label) (b : Option Nat) {rest : Gen Unit}
    (hrest : Does (b.toList ++ H) rest noLabels) :
    Does (b.toList ++ H) (do
      emitOp .jump
      let _ ← addKnownLabel top
      defineLabel b
      rest) noLabels :=
  (does_emitOp _).seq fun _ => (does_addKnownLabel htop).seq fun _ =>
    (does_defineGiven b).seq fun _ => hrest

theorem does_endWhile {top : Fixup} (htop : top.kind = .label) (b : Option Nat) :
    Does (b.toList ++ H) (do
      emitOp .jump
      let _ ← addKnownLabel top
      defineLabel b) noLabels :=
  (does_emitOp _).seq fun _ => (does_addKnownLabel htop).seq fun _ =>
    does_defineGiven _

/-- The labels of handlers, and the one of their end. -/
theorem mem_handlerLabels {labels : List Nat} (l : Nat) :
    ∀ n ∈ labels ++ (some l).toList, n ∈ [l] ++ (labels ++ H) := by
  intro n hn
  rcases List.mem_append.mp hn with hn | hn
  · exact List.mem_append_right _ (List.mem_append_left _ hn)
  · exact List.mem_append_left _ hn

theorem mem_tailLabels {labels : List Nat} {b b' : Option Nat} :
    ∀ n ∈ labels.tail ++ b'.toList, n ∈ b'.toList ++ (labels ++ b.toList) := by
  intro n hn
  rcases List.mem_append.mp hn with hn | hn
  · exact List.mem_append_right _ (List.mem_append_left _ (tail_sub n hn))
  · exact List.mem_append_left _ hn

mutual

theorem does_generateStmt : ∀ stmt : Stmt, ∀ {H : List Nat}, Does H (generateStmt stmt) noLabels
  | .cond arms otherwise, H =>
      ((does_generateArms arms .if none).mono nofun).bind fun b =>
        (does_generateStmts otherwise).seq fun _ =>
          does_defineGiven _
  | .list id e body, _ =>
      (does_generateExpr e).seq fun _ => (does_emitByte _).seq fun _ => (does_pushStack 1).seq fun _ =>
        .capture fun _ htop => (does_emitOp _).seq fun _ => (does_addVarRef id).seq fun _ =>
          does_addLabel.bind fun _ => does_curStackNow.seq fun _ =>
            .loop (by simp) htop (does_generateStmts body) fun b => does_endLoop htop b (does_popStack 2)
  | .range id from' to' body, _ =>
      (does_generateExpr from').seq fun _ => (does_generateExpr to').seq fun _ =>
        .capture fun _ htop => (does_emitOp _).seq fun _ => (does_addVarRef id).seq fun _ =>
          does_addLabel.bind fun _ => does_curStackNow.seq fun _ =>
            .loop (by simp) htop (does_generateStmts body) fun b => does_endLoop htop b (does_popStack 2)
  | .while id condition body, _ =>
      .capture fun _ htop => (does_generateExpr condition).seq fun _ => (does_emitWhile id).seq fun _ =>
        does_addLabel.bind fun _ => (does_popStack 1).seq fun _ => does_curStackNow.seq fun _ =>
          .loop (by simp) htop (does_generateStmts body) fun b => does_endWhile htop b
  | .fork id time body, _ =>
      (does_generateExpr time).seq fun _ => (does_emitOp _).seq fun _ =>
        (does_forkVector (generateStmts body)).seq fun bc => (does_addFork bc).seq fun _ =>
          (does_whenId id does_addVarRef).seq fun _ => does_popStack 1
  | .expr e, _ => (does_generateExpr e).seq fun _ => (does_emitOp _).seq fun _ => does_popStack 1
  | .return (some e), _ => (does_generateExpr e).seq fun _ => (does_emitOp _).seq fun _ => does_popStack 1
  | .return none, _ => does_emitOp _
  | .tryExcept body excepts, _ =>
      (does_generateHandlerCodes excepts).bind fun labels => (does_emitExtended _).seq fun _ =>
        (does_emitByte _).seq fun _ => (does_pushStack 1).seq fun _ => (does_generateStmts body).seq fun _ =>
          (does_emitExtended _).seq fun _ => does_addLabel.bind fun l => (does_popStack _).seq fun _ =>
            ((does_generateHandlers excepts labels (some l)).mono (mem_handlerLabels l)).bind fun b =>
              does_defineGiven _
  | .tryFinally body handler, _ =>
      (does_emitExtended _).seq fun _ => does_addLabel.bind fun _ => (does_pushStack 1).seq fun _ =>
        (does_generateStmts body).seq fun _ => (does_emitExtended _).seq fun _ =>
          (does_popStack 1).seq fun _ => (does_define (by simp)).seq fun _ => (does_pushStack 2).seq fun _ =>
            (does_generateStmts handler).seq fun _ => (does_emitExtended _).seq fun _ => does_popStack 2
  | .continue exit, _ => does_continue exit
  | .break exit, _ => does_break exit

theorem does_generateStmts : ∀ stmts : StmtList, ∀ {H : List Nat}, Does H (generateStmts stmts) noLabels
  | .nil, _ => .pure nofun
  | .cons stmt next, _ => (does_generateStmt stmt).seq fun _ => does_generateStmts next

theorem does_generateArms : ∀ (arms : CondArm) (op : Opcode) (b : Option Nat),
    Does b.toList (generateArms arms op b) Option.toList
  | .nil, _, _ => .pure fun _ hl => hl
  | .cons condition stmts next, op, b =>
      (does_generateExpr condition).seq fun _ => (does_emitOp op).seq fun _ => does_addLabel.bind fun _ =>
        (does_popStack 1).seq fun _ => (does_generateStmts stmts).seq fun _ => (does_emitOp _).seq fun _ =>
          (does_addLinkedLabel fun _ hn => List.mem_append_right _ (Option.mem_toList.mpr hn)).bind fun l =>
            (does_define (by simp)).seq fun _ => (does_generateArms next .eif (some l)).mono (by simp)

theorem does_generateHandlerCodes : ∀ excepts : ExceptArm, ∀ {H : List Nat},
    Does H (generateHandlerCodes excepts) id
  | .nil, _ => .pure nofun
  | .cons _ codes _ next, _ =>
      (does_generateCodes codes).seq fun _ => (does_emitExtended _).seq fun _ =>
        does_addLabel.bind fun _ => (does_pushStack 1).seq fun _ =>
          (does_generateHandlerCodes next).bind fun _ => .pure mem_newLabels

theorem does_generateHandlers : ∀ (excepts : ExceptArm) (labels : List Nat) (b : Option Nat),
    Does (labels ++ b.toList) (generateHandlers excepts labels b) Option.toList
  | .nil, _, _ => .pure fun _ hl => List.mem_append_right _ hl
  | .cons id _ stmts next, labels, b =>
      (does_defineLabel fun _ hn => List.mem_append_left _ (List.mem_of_mem_head? hn)).seq fun _ =>
        (does_pushStack 1).seq fun _ => (does_whenId id (does_emitVarOp .put)).seq fun _ =>
          (does_emitOp _).seq fun _ => (does_popStack 1).seq fun _ => (does_generateStmts stmts).seq fun _ =>
            ((does_jumpToEnd next b).mono fun _ hl => List.mem_append_right _ hl).bind fun b' =>
              (does_generateHandlers next labels.tail b').mono mem_tailLabels

end

/-- What follows the statements of a `try` with handlers. -/
theorem does_endTry (excepts : ExceptArm) (labels : List Nat) (n : Nat) : Does (labels ++ H) (do
    emitExtended .endExcept
    let endLabel ← addLabel
    popStack n
    let endLabel ← generateHandlers excepts labels (some endLabel)
    defineLabel endLabel) noLabels :=
  (does_emitExtended _).seq fun _ => does_addLabel.bind fun l => (does_popStack n).seq fun _ =>
    ((does_generateHandlers excepts labels (some l)).mono (mem_handlerLabels l)).bind fun _ =>
      does_defineGiven _

end Waverous
