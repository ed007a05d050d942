import Waverous.Strings

/-! # Strings without newlines

    The database file has one line for a string, and reading it ends at the first newline.
    No operation puts a newline into its result that was not in an argument, `chr` apart, which
    looks for the number 10 and makes a character of the last byte of any number
    (`results_one_line`). -/

namespace Waverous

mutual
/-- The strings in a value. -/
def Var.strings : Var → List Str
  | .str s => [s]
  | .list l => Var.stringsList l
  | _ => []

def Var.stringsList : List Var → List Str
  | [] => []
  | v :: vs => Var.strings v ++ Var.stringsList vs
end

/-- No newline. -/
def Str.OneLine (s : Str) : Prop := (10 : UInt8) ∉ s

/-- No string in the value has a newline. -/
def Var.OneLine (v : Var) : Prop := ∀ s ∈ v.strings, s.OneLine

/-- No string in the value has a newline or a NUL. -/
def Var.Clean (v : Var) : Prop := ∀ s ∈ v.strings, s.OneLine ∧ (0 : UInt8) ∉ s

/-- The arguments of an operation. -/
def StringOp.args : StringOp → List Var
  | .chr num => [.int num]
  | .decodeBinary string fully => .str string :: fully.toList
  | .encodeBinary args => args
  | .substitute template subs => [.str template, .list subs]
  | .strsub source what withStr caseMatters =>
      .str source :: .str what :: .str withStr :: caseMatters.toList
  | .rangeset base «from» «to» value => [base, «from», «to», value]
  | .indexset list index value => [list, index, value]
  | .tostr args => args
  | .toliteral value => [value]

theorem Var.stringsList_eq (l : List Var) : Var.stringsList l = l.flatMap Var.strings := by
  induction l with
  | nil => rfl
  | cons v vs ih => rw [Var.stringsList, ih, List.flatMap_cons]

theorem Var.oneLine_list {l : List Var} : (Var.list l).OneLine ↔ ∀ v ∈ l, v.OneLine := by
  rw [Var.OneLine, Var.strings, Var.stringsList_eq]
  constructor
  · intro h v hv s hs
    exact h s (List.mem_flatMap.mpr ⟨v, hv, hs⟩)
  · intro h s hs
    obtain ⟨v, hv, hs⟩ := List.mem_flatMap.mp hs
    exact h v hv s hs

theorem Var.oneLine_str {s : Str} : (Var.str s).OneLine ↔ s.OneLine := by
  rw [Var.OneLine, Var.strings]
  exact List.forall_mem_singleton

theorem Var.Clean.oneLine {v : Var} (h : v.Clean) : v.OneLine := fun s hs => (h s hs).1

/-! ## Strings -/

theorem Str.OneLine.append {s t : Str} (hs : s.OneLine) (ht : t.OneLine) : (s ++ t).OneLine :=
  fun h => (List.mem_append.mp h).elim hs ht

theorem Str.OneLine.cons {c : UInt8} {s : Str} (hc : c ≠ 10) (hs : s.OneLine) : Str.OneLine (c :: s) :=
  fun h => (List.mem_cons.mp h).elim (fun heq => hc heq.symm) hs

theorem Str.oneLine_nil : Str.OneLine [] := List.not_mem_nil

/-- A part of a string. -/
theorem Str.OneLine.sub {s t : Str} (hs : s.OneLine) (h : ∀ c ∈ t, c ∈ s) : t.OneLine :=
  fun hc => hs (h 10 hc)

theorem Str.OneLine.flatMap {s : Str} {f : UInt8 → Str} (hf : ∀ c ∈ s, Str.OneLine (f c)) :
    Str.OneLine (s.flatMap f) := by
  intro h
  obtain ⟨c, hc, hcf⟩ := List.mem_flatMap.mp h
  exact hf c hc hcf

theorem digit_ne : ∀ d < 16, digit d ≠ 10 := by decide

theorem itoaLoop_oneLine (radix : Nat) (hpos : 0 < radix) (hr : radix ≤ 16) (fuel n : Nat) {ptr : Str}
    (h : ptr.OneLine) : (itoaLoop radix fuel n ptr).OneLine := by
  induction fuel generalizing n ptr with
  | zero => exact h
  | succ fuel ih =>
      rw [itoaLoop]
      split
      · exact h
      · exact ih _ (h.cons (digit_ne _ (Nat.lt_of_lt_of_le (Nat.mod_lt n hpos) hr)))

theorem printInt_oneLine (num : Int32) : (printInt num).OneLine := by
  rw [printInt, itoa]
  have hloop := itoaLoop_oneLine 10 (by decide) (by decide) 32 num.toInt.natAbs Str.oneLine_nil
  split
  · show ¬ _ ∈ _
    decide
  · split
    · show ¬ _ ∈ Str.ofString "-2147483648"
      decide
    · dsimp only
      split
      · exact hloop.cons (by decide)
      · exact hloop

/-! ## Printing -/

theorem decimal_oneLine (n : Nat) : (decimal n).OneLine := by
  intro h
  obtain ⟨c, hc, heq⟩ := List.mem_map.mp h
  have hdigit := Nat.isDigit_of_mem_toDigits (by decide) (by decide) hc
  simp only [Char.isDigit, Bool.and_eq_true, decide_eq_true_eq] at hdigit
  have hlow : 48 ≤ c.toNat := UInt32.le_iff_toNat_le.mp hdigit.1
  have hhigh : c.toNat ≤ 57 := UInt32.le_iff_toNat_le.mp hdigit.2
  have htoNat := congrArg UInt8.toNat heq
  rw [UInt8.toNat_ofNat'] at htoNat
  have : c.toNat % 256 = 10 := htoNat
  omega

theorem fraction_oneLine {digits : Str} (h : digits.OneLine) : (fraction digits).OneLine := by
  have hsub : Str.OneLine (digits.reverse.dropWhile (· == 48)).reverse := by
    refine h.sub fun c hc => ?_
    exact List.mem_reverse.mp ((List.dropWhile_sublist _).mem (List.mem_reverse.mp hc))
  rw [fraction]
  split
  · exact Str.oneLine_nil
  · exact hsub.cons (by decide)

theorem formatPositive_oneLine (num den : Nat) : (formatPositive num den).OneLine := by
  rw [formatPositive]
  obtain ⟨d, x⟩ := digits15 num den
  have hd : (decimal d).OneLine := decimal_oneLine d
  have htake : ∀ n, Str.OneLine ((decimal d).take n) := fun n => hd.sub fun _ => List.mem_of_mem_take
  have hdrop : ∀ n, Str.OneLine ((decimal d).drop n) := fun n => hd.sub fun _ => List.mem_of_mem_drop
  dsimp only
  split
  · split
    · exact (htake _).append (fraction_oneLine (hdrop _))
    · have hzeros : ∀ n, Str.OneLine (List.replicate n 48) := by
        intro n h
        exact absurd (List.mem_replicate.mp h).2 (by decide)
      exact (fraction_oneLine ((hzeros _).append hd)).cons (by decide)
  · have hexponent : Str.OneLine ((if (decimal x.natAbs).length < 2 then [48] else []) ++ decimal x.natAbs) := by
      refine Str.OneLine.append ?_ (decimal_oneLine _)
      split <;> show ¬ _ ∈ _ <;> decide
    refine ((htake 1).append (fraction_oneLine (hdrop 1))).append ?_
    refine Str.OneLine.cons (by decide) (hexponent.cons ?_)
    split <;> decide

theorem formatG_oneLine (bits : UInt64) : (formatG bits).OneLine := by
  rw [formatG]
  refine Str.OneLine.append ?_ ?_
  · split <;> show ¬ _ ∈ _ <;> decide
  · split
    · split <;> show ¬ _ ∈ _ <;> decide
    · split
      · show ¬ _ ∈ _
        decide
      · split
        · exact formatPositive_oneLine _ _
        · split
          · exact formatPositive_oneLine _ _
          · exact formatPositive_oneLine _ _

theorem printG_oneLine (bits : UInt64) : (printG bits).OneLine := by
  have hbuffer : Str.OneLine ((formatG bits).take 39) :=
    (formatG_oneLine bits).sub fun _ => List.mem_of_mem_take
  rw [printG]
  split
  · refine hbuffer.append ?_
    show ¬ _ ∈ _
    decide
  · exact hbuffer

theorem printObj_oneLine (oid : Objid) : (printObj oid).OneLine :=
  (printInt_oneLine (Int32.ofInt oid)).cons (by decide)

theorem error_oneLine (e : Error) : (unparseError e).OneLine ∧ (errorName e).OneLine := by
  cases e <;> constructor <;> show ¬ _ ∈ _ <;> decide

theorem valueText_oneLine {v : Var} (h : v.OneLine) {s : Str} (hs : valueText v = some s) :
    s.OneLine := by
  rw [valueText.eq_def] at hs
  split at hs
  next num =>
    cases hs
    exact printInt_oneLine num
  next oid =>
    cases hs
    exact printObj_oneLine oid
  next s =>
    cases hs
    exact Var.oneLine_str.mp h
  next e =>
    cases hs
    exact (error_oneLine e).1
  next bits =>
    cases hs
    exact printG_oneLine bits
  next l =>
    cases hs
    show ¬ _ ∈ _
    decide
  next => exact nomatch hs

theorem list2str_oneLine {args : List Var} (h : ∀ v ∈ args, v.OneLine) {s : Str}
    (hs : list2str args = some s) : s.OneLine := by
  induction args generalizing s with
  | nil =>
      cases hs
      exact Str.oneLine_nil
  | cons v args ih =>
      simp only [list2str, Option.bind_eq_bind, Option.bind_eq_some_iff] at hs
      obtain ⟨s1, h1, rest, hrest, heq⟩ := hs
      cases heq
      have hv := valueText_oneLine (h v List.mem_cons_self) h1
      exact hv.append (ih (fun v hv => h v (List.mem_cons_of_mem _ hv)) hrest)

theorem quote_oneLine {s : Str} (h : s.OneLine) : (quote s).OneLine := by
  refine Str.OneLine.cons (by decide) (Str.OneLine.append (Str.OneLine.flatMap fun c hc => ?_) ?_)
  · have hc : c ≠ 10 := fun heq => h (heq ▸ hc)
    split
    · exact (Str.oneLine_nil.cons hc).cons (by decide)
    · exact Str.oneLine_nil.cons hc
  · show ¬ _ ∈ _
    decide

mutual
theorem printToStream_oneLine : ∀ v : Var, v.OneLine → (printToStream v).OneLine
  | .int num, _ => printInt_oneLine num
  | .obj oid, _ => printObj_oneLine oid
  | .err e, _ => (error_oneLine e).2
  | .float bits, _ => printG_oneLine bits
  | .str s, h => quote_oneLine (Var.oneLine_str.mp h)
  | .list l, h => by
      have hl := printList_oneLine l true (Var.oneLine_list.mp h)
      rw [printToStream]
      exact (hl.cons (by decide)).append (Str.oneLine_nil.cons (by decide))
  | .clear, _ | .none, _ | .catch _, _ | .finally _, _ => by
      show ¬ _ ∈ Str.ofString ">>Unknown value<<"
      decide

theorem printList_oneLine : ∀ (l : List Var) (isFirst : Bool), (∀ v ∈ l, v.OneLine) →
    (printList l isFirst).OneLine
  | [], _, _ => Str.oneLine_nil
  | v :: vs, isFirst, h => by
      have hv := printToStream_oneLine v (h v List.mem_cons_self)
      have hvs := printList_oneLine vs false fun v hv => h v (List.mem_cons_of_mem _ hv)
      rw [printList]
      refine Str.OneLine.append (Str.OneLine.append ?_ hv) hvs
      cases isFirst <;> show ¬ _ ∈ _ <;> decide
end

/-! ## The operations -/

theorem rawBytesToBinary_oneLine (bytes : Str) : (rawBytesToBinary bytes).OneLine := by
  refine Str.OneLine.flatMap fun c _ => ?_
  have hc := c.toNat_lt
  split
  next h =>
    refine Str.oneLine_nil.cons ?_
    rintro rfl
    revert h
    decide
  next =>
    have hhigh := digit_ne (c.toNat / 16) (by omega)
    have hlow := digit_ne (c.toNat % 16) (by omega)
    exact ((Str.oneLine_nil.cons hlow).cons hhigh).cons (by decide)

theorem decodeRuns_oneLine (bytes : Str) {s : Str} (inString : Bool) (hs : s.OneLine) :
    ∀ v ∈ decodeRuns s inString bytes, v.OneLine := by
  have hflush : ∀ {s : Str}, s.OneLine → ∀ (inString : Bool), ∀ v ∈ (if inString then [Var.str s] else []),
      v.OneLine := by
    intro s hs inString v hv
    cases inString with
    | false => exact nomatch hv
    | true =>
        rw [List.mem_singleton.mp hv]
        exact Var.oneLine_str.mpr hs
  induction bytes generalizing s inString with
  | nil =>
      rw [decodeRuns]
      exact hflush hs inString
  | cons c bytes ih =>
      rw [decodeRuns]
      split
      next hc =>
        refine ih true (hs.append (Str.oneLine_nil.cons ?_))
        rintro rfl
        revert hc
        decide
      next =>
        intro v hv
        rcases List.mem_append.mp hv with hv | hv
        · exact hflush hs inString v hv
        · rcases List.mem_cons.mp hv with rfl | hv
          · exact fun _ h => nomatch h
          · exact ih false Str.oneLine_nil v hv

theorem copyPair_sub (subject : Str) (pair : Int32 × Int32) : ∀ c ∈ copyPair subject pair, c ∈ subject :=
  fun _ hc => List.mem_of_mem_drop (List.mem_of_mem_take hc)

theorem checkSubsList_oneLine {subs : List Var} (hsubs : (Var.list subs).OneLine)
    {pairs : List (Int32 × Int32)} {subject : Str} (h : checkSubsList subs = some (pairs, subject)) :
    subject.OneLine := by
  rw [checkSubsList.eq_def] at h
  split at h
  next num1 num2 ps subj =>
    obtain ⟨-, h⟩ := Option.ite_none_right_eq_some.mp h
    obtain ⟨l, -, heq⟩ := Option.bind_eq_some_iff.mp h
    cases heq
    exact Var.oneLine_str.mp (Var.oneLine_list.mp hsubs (.str subject) (by simp))
  next => exact nomatch h

theorem substituteLoop_oneLine {pairs : List (Int32 × Int32)} {subject : Str} (hsubject : subject.OneLine)
    {template : Str} (htemplate : template.OneLine) {s : Str}
    (hs : substituteLoop pairs subject template = some s) : s.OneLine := by
  induction template using substituteLoop.induct generalizing s with
  | case1 =>
      cases hs
      exact Str.oneLine_nil
  | case2 c template ih =>
      simp only [substituteLoop, Option.bind_eq_bind, Option.bind_eq_some_iff] at hs
      obtain ⟨part, hpart, rest, hrest, heq⟩ := hs
      cases heq
      have hrest' := ih (htemplate.sub fun c hc => List.mem_cons_of_mem _ (List.mem_cons_of_mem _ hc)) hrest
      refine Str.OneLine.append ?_ hrest'
      split at hpart
      · cases hpart
        exact Str.oneLine_nil.cons (by decide)
      · split at hpart
        · obtain ⟨pair, -, rfl⟩ := Option.map_eq_some_iff.mp hpart
          exact hsubject.sub (copyPair_sub subject pair)
        · exact nomatch hpart
  | case3 template htwo =>
      -- a single `%` at the end
      rw [substituteLoop.eq_def] at hs
      split at hs
      next h => exact nomatch h
      next h =>
        cases h
        exact (htwo _ _ rfl rfl).elim
      next h =>
        cases h
        exact nomatch hs
  | case4 c template htwo hc ih =>
      rw [substituteLoop.eq_def] at hs
      split at hs
      next h => exact nomatch h
      next h =>
        cases h
        exact absurd rfl hc
      next h =>
        cases h
        rw [if_neg hc] at hs
        obtain ⟨rest, hrest, rfl⟩ := Option.map_eq_some_iff.mp hs
        refine Str.OneLine.cons (fun heq => htemplate (heq ▸ List.mem_cons_self)) (ih ?_ hrest)
        exact htemplate.sub fun _ => List.mem_cons_of_mem _

theorem strsub_oneLine {what withStr : Str} (hwith : withStr.OneLine) (caseCounts : Bool) (skip : Nat)
    {source : Str} (hsource : source.OneLine) : (strsub what withStr caseCounts skip source).OneLine := by
  induction source generalizing skip with
  | nil =>
      rw [strsub]
      exact Str.oneLine_nil
  | cons c source ih =>
      have hc : c ≠ 10 := fun heq => hsource (heq ▸ List.mem_cons_self)
      have hrest : Str.OneLine source := hsource.sub fun _ => List.mem_cons_of_mem c
      cases skip with
      | succ skip =>
          rw [strsub]
          exact ih skip hrest
      | zero =>
          rw [strsub]
          split
          · exact hwith.append (ih _ hrest)
          · exact (ih _ hrest).cons hc

theorem mem_setRange {α : Type} {base value : List α} {«from» «to» : Int32} {a : α}
    (h : a ∈ setRange base «from» «to» value) : a ∈ base ∨ a ∈ value := by
  rcases List.mem_append.mp h with h | h
  · rcases List.mem_append.mp h with h | h
    · exact .inl (List.mem_of_mem_take h)
    · exact .inr h
  · exact .inl (List.mem_of_mem_drop h)

theorem eopRangeset_oneLine {base «from» «to» value r : Var} (hbase : base.OneLine) (hvalue : value.OneLine)
    (h : eopRangeset base «from» «to» value = .ok r) : r.OneLine := by
  rw [eopRangeset.eq_def] at h
  split at h
  next base «from» «to» value =>
    split at h
    · exact nomatch h
    · cases h
      refine Var.oneLine_list.mpr fun v hv => ?_
      exact (mem_setRange hv).elim (Var.oneLine_list.mp hbase v) (Var.oneLine_list.mp hvalue v)
  next base «from» «to» value =>
    split at h
    · exact nomatch h
    · cases h
      refine Var.oneLine_str.mpr fun hc => ?_
      exact (mem_setRange hc).elim (Var.oneLine_str.mp hbase) (Var.oneLine_str.mp hvalue)
  next => exact nomatch h

theorem opIndexset_oneLine {list index value r : Var} (hlist : list.OneLine) (hvalue : value.OneLine)
    (h : opIndexset list index value = .ok r) : r.OneLine := by
  rw [opIndexset.eq_def] at h
  split at h
  next l i value =>
    split at h
    · exact nomatch h
    · cases h
      refine Var.oneLine_list.mpr fun v hv => ?_
      rcases List.mem_or_eq_of_mem_set hv with hv | rfl
      · exact Var.oneLine_list.mp hlist v hv
      · exact hvalue
  next s i value =>
    split at h
    · exact nomatch h
    · split at h
      next c =>
        cases h
        refine Var.oneLine_str.mpr fun hc => ?_
        rcases List.mem_or_eq_of_mem_set hc with hc | rfl
        · exact Var.oneLine_str.mp hlist hc
        · exact Var.oneLine_str.mp hvalue List.mem_cons_self
      next => exact nomatch h
  next => exact nomatch h

/-- `chr` makes a newline of other numbers than 10. -/
theorem bfChr_oneLine (wizard : Bool) (num : Int32) :
    (∀ r, bfChr wizard num = .ok r → r.OneLine) ↔
      ¬ (wizard = true ∧ num ≠ 10 ∧ num.toInt % 256 = 10) := by
  have hbyte : UInt8.ofInt num.toInt = 10 ↔ num.toInt % 256 = 10 := by
    rw [← UInt8.toNat_inj, UInt8.ofInt, UInt8.toNat_ofNat']
    show (num.toInt % 256).toNat % 256 = 10 ↔ _
    omega
  have hresult : ∀ c : UInt8, (Var.str (if c = 0 then [] else [c])).OneLine ↔ c ≠ 10 := by
    intro c
    rw [Var.oneLine_str]
    split
    next h =>
      subst h
      exact iff_of_true Str.oneLine_nil (by decide)
    next =>
      constructor
      · rintro h rfl
        exact h List.mem_cons_self
      · exact Str.oneLine_nil.cons
  rw [bfChr]
  split
  next hw =>
    refine iff_of_true (fun r h => (by cases h)) fun h => ?_
    cases hw.symm.trans h.1
  next hw =>
    have hw : wizard = true := by simpa using hw
    split
    next hten => exact iff_of_true (fun r h => (by cases h)) fun h => h.2.1 hten
    next hten =>
      rw [← hbyte]
      constructor
      · rintro h ⟨-, -, hc⟩
        exact (hresult _).mp (h _ rfl) hc
      · intro hnot r hr
        cases hr
        exact (hresult _).mpr fun hc => hnot ⟨hw, hten, hc⟩

/-- The other operations. -/
theorem StringOp.oneLine {wizard : Bool} {op : StringOp} (hargs : ∀ v ∈ op.args, v.OneLine)
    (hchr : ∀ num, op ≠ .chr num) {r : Var} (h : op.run wizard = some (.ok r)) : r.OneLine := by
  cases op with
  | chr num => exact absurd rfl (hchr num)
  | decodeBinary string fully =>
      have h : bfDecodeBinary string fully = .ok r := Option.some.inj h
      rw [bfDecodeBinary] at h
      split at h
      · exact nomatch h
      · split at h
        · cases h
          refine Var.oneLine_list.mpr fun v hv => ?_
          obtain ⟨c, -, rfl⟩ := List.mem_map.mp hv
          exact fun _ hs => nomatch hs
        · cases h
          exact Var.oneLine_list.mpr (decodeRuns_oneLine _ false Str.oneLine_nil)
  | encodeBinary args =>
      have h : bfEncodeBinary args = .ok r := Option.some.inj h
      rw [bfEncodeBinary] at h
      split at h
      · exact nomatch h
      · cases h
        exact Var.oneLine_str.mpr (rawBytesToBinary_oneLine _)
  | substitute template subs =>
      have h : bfSubstitute template subs = .ok r := Option.some.inj h
      rw [bfSubstitute] at h
      split at h
      · exact nomatch h
      next pairs subject hsubs =>
        split at h
        · exact nomatch h
        next s hs =>
          cases h
          have htemplate := Var.oneLine_str.mp (hargs _ List.mem_cons_self)
          have hsubject := checkSubsList_oneLine (hargs _ (List.mem_cons_of_mem _ List.mem_cons_self)) hsubs
          exact Var.oneLine_str.mpr (substituteLoop_oneLine hsubject htemplate hs)
  | strsub source what withStr caseMatters =>
      have h : bfStrsub source what withStr caseMatters = .ok r := Option.some.inj h
      obtain ⟨-, heq⟩ : what ≠ [] ∧ _ = r := by
        rw [bfStrsub] at h
        split at h
        next => exact nomatch h
        next hne => exact ⟨hne, Except.ok.inj h⟩
      subst heq
      have hsource := Var.oneLine_str.mp (hargs (.str source) List.mem_cons_self)
      have hwith := Var.oneLine_str.mp (hargs (.str withStr) (by simp [StringOp.args]))
      exact Var.oneLine_str.mpr (strsub_oneLine hwith _ 0 hsource)
  | rangeset base «from» «to» value =>
      exact eopRangeset_oneLine (hargs _ List.mem_cons_self) (hargs _ (by simp [StringOp.args]))
        (Option.some.inj h)
  | indexset list index value =>
      exact opIndexset_oneLine (hargs _ List.mem_cons_self) (hargs _ (by simp [StringOp.args]))
        (Option.some.inj h)
  | tostr args =>
      obtain ⟨s, hs, heq⟩ := Option.map_eq_some_iff.mp h
      cases heq
      exact Var.oneLine_str.mpr (list2str_oneLine hargs hs)
  | toliteral value =>
      cases h
      exact Var.oneLine_str.mpr (printToStream_oneLine value (hargs value List.mem_cons_self))

/-- No operation on arguments without newlines gives a newline, if and only if it is not `chr`
    of a number other than 10 whose last byte is 10. -/
theorem results_one_line (wizard : Bool) (op : StringOp) (hargs : ∀ v ∈ op.args, v.Clean) :
    (∀ r, op.run wizard = some (.ok r) → r.OneLine) ↔
      ¬ (wizard = true ∧ ∃ num, op = .chr num ∧ num ≠ 10 ∧ num.toInt % 256 = 10) := by
  by_cases hchr : ∃ num, op = .chr num
  · obtain ⟨num, rfl⟩ := hchr
    have hrun : ∀ r, (StringOp.chr num).run wizard = some (.ok r) ↔ bfChr wizard num = .ok r :=
      fun r => Option.some_inj
    simp only [hrun]
    refine (bfChr_oneLine wizard num).trans (not_congr (and_congr_right' ?_))
    constructor
    · intro h
      exact ⟨num, rfl, h⟩
    · rintro ⟨n, heq, h⟩
      cases heq
      exact h
  · refine iff_of_true (fun r hr => ?_) fun h => ?_
    · exact StringOp.oneLine (fun v hv => (hargs v hv).oneLine) (fun n heq => hchr ⟨n, heq⟩) hr
    · obtain ⟨-, n, heq, -⟩ := h
      exact hchr ⟨n, heq⟩

/-- The values that programs can make out of given ones, when no `chr` makes a newline. -/
inductive Obtained : Var → Prop where
  | given {v : Var} : v.OneLine → Obtained v
  | list {l : List Var} : (∀ v ∈ l, Obtained v) → Obtained (.list l)
  | element {l : List Var} {v : Var} : Obtained (.list l) → v ∈ l → Obtained v
  | op {wizard : Bool} {op : StringOp} {r : Var} : (∀ v ∈ op.args, Obtained v) →
      ¬ (wizard = true ∧ ∃ num, op = .chr num ∧ num ≠ 10 ∧ num.toInt % 256 = 10) →
      op.run wizard = some (.ok r) → Obtained r

/-- They can be written into the database file. -/
theorem Obtained.oneLine {v : Var} (h : Obtained v) : v.OneLine := by
  induction h with
  | given hv => exact hv
  | list _ ih => exact Var.oneLine_list.mpr ih
  | element _ hv ih => exact Var.oneLine_list.mp ih _ hv
  | @op wizard op r _ hgood hrun ih =>
      by_cases hchr : ∃ num, op = .chr num
      · obtain ⟨num, rfl⟩ := hchr
        refine (bfChr_oneLine wizard num).mpr (fun hbad => hgood ?_) r (Option.some.inj hrun)
        exact ⟨hbad.1, num, rfl, hbad.2⟩
      · exact StringOp.oneLine ih (fun num heq => hchr ⟨num, heq⟩) hrun

/-- A wizard's `chr(266)`. -/
theorem chr_makes_newline : (StringOp.chr 266).run true = some (.ok (.str [10])) := by rfl

/-- `strsub` on clean arguments. -/
theorem results_one_line_strsub :
    (∀ r, (StringOp.strsub [97, 98] [98] [99] none).run false = some (.ok r) → r.OneLine) ↔
      ¬ (false = true ∧ ∃ num, StringOp.strsub [97, 98] [98] [99] none = .chr num ∧ num ≠ 10 ∧
        num.toInt % 256 = 10) := by
  refine results_one_line false (.strsub [97, 98] [98] [99] none) fun v hv => ?_
  have hv : v ∈ [Var.str [97, 98], .str [98], .str [99]] := hv
  simp only [List.mem_cons, List.not_mem_nil, or_false] at hv
  rcases hv with rfl | rfl | rfl <;> intro s hs <;>
    (rw [List.mem_singleton.mp hs]; constructor <;> show ¬ _ ∈ _ <;> decide)

end Waverous
