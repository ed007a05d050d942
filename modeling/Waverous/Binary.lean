import Waverous.Strings
import Waverous.Lib.Blocks

/-! # Binary strings — `utils.c`, `list.c`

    `binary_to_raw_bytes` as it reads its string, up to the NUL and no further, and
    `decode_binary` in its two passes: the first counts the elements of the list that the second
    stores. -/

namespace Waverous

open Blocks

/-! ## `binary_to_raw_bytes` -/

/-- `s[i]`; behind the characters of a string there is its NUL, and nothing behind that. -/
def charAt (s : Str) (i : Nat) : Except Fault UInt8 :=
  match s[i]? with
  | some c => .ok c
  | none => if i = s.length then .ok 0 else .error .read

/-- The `for` over two digits; `none` is `return 0`. -/
def hexLoop (s : Str) : Nat → Nat → UInt8 → Except Fault (Option (UInt8 × Nat))
  | 0, ptr, cc => .ok (some (cc, ptr))
  | n + 1, ptr, cc =>
      match charAt s ptr with
      | .error f => .error f
      | .ok c =>
          match hexValue c with
          | some d => hexLoop s n (ptr + 1) (cc * 16 + d)
          | none => .ok none

/-- The `while` of `binary_to_raw_bytes`; the outer `none` if it goes round more often than `fuel`
    allows, the inner one is the null pointer. -/
def rawBytesLoop (s : Str) : Nat → Nat → Str → Option (Except Fault (Option Str))
  | 0, _, _ => none
  | fuel + 1, ptr, stream =>
      match charAt s ptr with
      | .error f => some (.error f)
      | .ok c =>
          if c = 0 then some (.ok (some stream))
          else if c ≠ 126 then rawBytesLoop s fuel (ptr + 1) (stream ++ [c])
          else
            match hexLoop s 2 (ptr + 1) 0 with
            | .error f => some (.error f)
            | .ok none => some (.ok none)
            | .ok (some (cc, ptr)) => rawBytesLoop s fuel ptr (stream ++ [cc])

/-- A tilde without two digits behind it. -/
def BadTilde (s : Str) : Prop :=
  ∃ before after, s = before ++ 126 :: after ∧
    ¬ ∃ c d rest, after = c :: d :: rest ∧ (hexValue c).isSome ∧ (hexValue d).isSome

section

variable {s : Str}

theorem charAt_drop {i : Nat} {c : UInt8} {rest : Str} (h : s.drop i = c :: rest) :
    charAt s i = .ok c ∧ s.drop (i + 1) = rest := by
  have hget : s[i]? = some c := by
    rw [← List.head?_drop, h]
    rfl
  refine ⟨by rw [charAt, hget], ?_⟩
  rw [← List.tail_drop, h]
  rfl

theorem charAt_end {i : Nat} (h : s.drop i = []) (hi : i ≤ s.length) : charAt s i = .ok 0 := by
  have hlen : i = s.length := Nat.le_antisymm hi (List.drop_eq_nil_iff.mp h)
  rw [charAt, List.getElem?_eq_none (Nat.le_of_eq hlen.symm)]
  exact if_pos hlen

theorem hexValue_zero : hexValue 0 = none := by decide

/-- The two characters behind a tilde. -/
theorem hexLoop_spec {ptr : Nat} (hptr : ptr ≤ s.length) : hexLoop s 2 ptr 0 = .ok
    (match s.drop ptr with
    | c :: d :: _ => do
        let c ← hexValue c
        let d ← hexValue d
        some (c * 16 + d, ptr + 2)
    | _ => none) := by
  cases hdrop : s.drop ptr with
  | nil => simp only [hexLoop, charAt_end hdrop hptr, hexValue_zero]
  | cons c rest =>
      obtain ⟨hc, hrest⟩ := charAt_drop hdrop
      have hlt : ptr + 1 ≤ s.length := by
        have := congrArg List.length hdrop
        rw [List.length_drop, List.length_cons] at this
        omega
      cases hhex : hexValue c with
      | none =>
          simp only [hexLoop, hc, hhex]
          cases rest with
          | nil => rfl
          | cons d rest => simp [hhex]
      | some c' =>
          cases hdrop' : rest with
          | nil =>
              rw [hdrop'] at hrest
              simp only [hexLoop, hc, hhex, charAt_end hrest hlt, hexValue_zero]
          | cons d rest' =>
              rw [hdrop'] at hrest
              obtain ⟨hd, -⟩ := charAt_drop hrest
              simp only [hexLoop, hc, hhex, hd, Option.bind_eq_bind, Option.bind_some]
              cases hexValue d with
              | none => rfl
              | some d' =>
                  have hzero : (0 : UInt8) * 16 + c' = c' := by
                    rw [UInt8.zero_mul, UInt8.zero_add]
                  simp only [hzero, Option.bind_some]

/-- The loop reads what is left of the string, and does not read behind it. -/
theorem rawBytesLoop_spec (hs : (0 : UInt8) ∉ s) {fuel ptr : Nat} {stream : Str}
    (hptr : ptr ≤ s.length) (hfuel : s.length < ptr + fuel) :
    rawBytesLoop s fuel ptr stream = some (.ok ((binaryToRawBytes (s.drop ptr)).map (stream ++ ·))) := by
  induction fuel generalizing ptr stream with
  | zero => omega
  | succ fuel ih =>
      rw [rawBytesLoop]
      cases hdrop : s.drop ptr with
      | nil => simp [charAt_end hdrop hptr, binaryToRawBytes]
      | cons c rest =>
          obtain ⟨hc, hrest⟩ := charAt_drop hdrop
          have hmem : c ∈ s := List.mem_of_mem_drop (hdrop ▸ List.mem_cons_self)
          have hne : c ≠ 0 := fun h => hs (h ▸ hmem)
          have hlt : ptr + 1 ≤ s.length := by
            have := congrArg List.length hdrop
            rw [List.length_drop, List.length_cons] at this
            omega
          simp only [hc]
          rw [if_neg hne]
          by_cases htilde : c = 126
          · subst htilde
            rw [if_neg (by simp), hexLoop_spec hlt, hrest]
            rcases rest with _ | ⟨c, _ | ⟨d, rest⟩⟩
            · rfl
            · rfl
            · simp only [binaryToRawBytes, Option.bind_eq_bind]
              cases hexValue c with
              | none => rfl
              | some c' =>
                  cases hexValue d with
                  | none => rfl
                  | some d' =>
                      have hdrop2 : s.drop (ptr + 1 + 2) = rest := by
                        rw [← List.drop_drop, hrest]
                        rfl
                      have hlt2 : ptr + 1 + 2 ≤ s.length := by
                        have := congrArg List.length hrest
                        rw [List.length_drop, List.length_cons, List.length_cons] at this
                        omega
                      simp only [Option.bind_some]
                      rw [ih hlt2 (by omega), hdrop2]
                      cases binaryToRawBytes rest with
                      | none => rfl
                      | some r => simp
          · rw [if_pos htilde, ih hlt (by omega), hrest, binaryToRawBytes_cons htilde, Option.map_map]
            cases binaryToRawBytes rest with
            | none => rfl
            | some r => simp

/-- What is read is refused for a tilde without two digits behind it, and only then. -/
theorem binaryToRawBytes_none (s : Str) : binaryToRawBytes s = none ↔ BadTilde s := by
  induction s using binaryToRawBytes.induct with
  | case1 =>
      constructor
      · intro h
        cases h
      · rintro ⟨before, after, h, -⟩
        exact absurd (congrArg List.length h) (by simp)
  | case2 c d ptr ih =>
      constructor
      · intro h
        cases hc : hexValue c with
        | none =>
            refine ⟨[], c :: d :: ptr, rfl, ?_⟩
            rintro ⟨_, _, _, ⟨⟩, hc', -⟩
            rw [hc] at hc'
            cases hc'
        | some c' =>
            cases hd : hexValue d with
            | none =>
                refine ⟨[], c :: d :: ptr, rfl, ?_⟩
                rintro ⟨_, _, _, ⟨⟩, -, hd'⟩
                rw [hd] at hd'
                cases hd'
            | some d' =>
                simp only [binaryToRawBytes, hc, hd, Option.bind_eq_bind, Option.bind_some] at h
                have hrest : binaryToRawBytes ptr = none := by
                  cases hr : binaryToRawBytes ptr with
                  | none => rfl
                  | some r =>
                      rw [hr] at h
                      cases h
                obtain ⟨before, after, rfl, hbad⟩ := ih.mp hrest
                exact ⟨126 :: c :: d :: before, after, rfl, hbad⟩
      · rintro ⟨before, after, h, hbad⟩
        simp only [binaryToRawBytes]
        rcases before with _ | ⟨a, _ | ⟨b, _ | ⟨b', before⟩⟩⟩
        · cases h
          cases hc : hexValue c with
          | none => rfl
          | some c' =>
              cases hd : hexValue d with
              | none => rfl
              | some d' => exact absurd ⟨c, d, ptr, rfl, by rw [hc]; rfl, by rw [hd]; rfl⟩ hbad
        · cases h
          rw [hexValue_tilde]
          rfl
        · cases h
          rw [hexValue_tilde]
          cases hexValue c <;> rfl
        · cases h
          rw [ih.mpr ⟨before, after, rfl, hbad⟩]
          cases hexValue c with
          | none => rfl
          | some c' => cases hexValue d <;> rfl
  | case3 ptr hptr =>
      constructor
      · intro _
        refine ⟨[], ptr, rfl, ?_⟩
        rintro ⟨c, d, rest, rfl, -, -⟩
        exact hptr c d rest rfl rfl
      · intro _
        rcases ptr with _ | ⟨c, _ | ⟨d, ptr⟩⟩
        · rfl
        · rfl
        · exact (hptr c d ptr rfl rfl).elim
  | case4 c ptr hptr hc ih =>
      rw [binaryToRawBytes_cons hc, Option.map_eq_none_iff, ih]
      constructor
      · rintro ⟨before, after, rfl, hbad⟩
        exact ⟨c :: before, after, rfl, hbad⟩
      · rintro ⟨before, after, h, hbad⟩
        cases before with
        | nil =>
            cases h
            exact absurd rfl hc
        | cons a before =>
            cases h
            exact ⟨before, after, rfl, hbad⟩

end

/-! ## `decode_binary` -/

/-- `isgraph(c) || c == ' ' || c == '\t'`. -/
def isText (c : UInt8) : Bool := decide (isgraph c ∨ c = 32 ∨ c = 9)

/-- The first pass. -/
def countRuns : Bool → Nat → Str → Nat
  | _, count, [] => count
  | inString, count, c :: bytes =>
      if isText c then countRuns true (if inString then count else count + 1) bytes
      else countRuns false (count + 1) bytes

/-- `r.v.list[count] = v`; `none` is a write outside the list. -/
def storeAt (r : List (Option Var)) (count : Nat) (v : Var) : Option (List (Option Var)) :=
  if 1 ≤ count ∧ count ≤ r.length then some (r.set (count - 1) (some v)) else none

/-- `if (in_string)`: the string that has been begun is stored. -/
def storeString (r : List (Option Var)) (count : Nat) (inString : Bool) (s : Str) :
    Option (List (Option Var) × Nat) :=
  if inString then (storeAt r count (.str s)).map (·, count + 1) else some (r, count)

/-- The second pass. -/
def storeRuns : List (Option Var) → Nat → Bool → Str → Str → Option (List (Option Var))
  | r, count, inString, s, [] => (storeString r count inString s).map Prod.fst
  | r, count, inString, s, c :: bytes =>
      if isText c then storeRuns r count true (s ++ [c]) bytes
      else do
        let (r, count) ← storeString r count inString s
        let r ← storeAt r count (.int (Int32.ofNat c.toNat))
        storeRuns r (count + 1) false [] bytes

/-- The list of `decode_binary` that is not fully decoded; `none` in it is what is not stored. -/
def decodeLoops (bytes : Str) : Option (List (Option Var)) :=
  storeRuns (List.replicate (countRuns false 0 bytes) none) 1 false [] bytes

theorem decodeRuns_cons (s : Str) (inString : Bool) (c : UInt8) (bytes : Str) :
    decodeRuns s inString (c :: bytes) =
      if isText c then decodeRuns (s ++ [c]) true bytes
      else (if inString then [.str s] else []) ++
        .int (Int32.ofNat c.toNat) :: decodeRuns [] false bytes := by
  rw [decodeRuns, isText]
  simp only [decide_eq_true_eq]

/-- The first pass counts the runs, but the one that has been begun. -/
theorem countRuns_eq (s : Str) (inString : Bool) (count : Nat) (bytes : Str) :
    countRuns inString count bytes + inString.toNat =
      count + (decodeRuns s inString bytes).length := by
  induction bytes generalizing s inString count with
  | nil => cases inString <;> rfl
  | cons c bytes ih =>
      rw [countRuns, decodeRuns_cons]
      by_cases hc : isText c = true
      · rw [if_pos hc, if_pos hc]
        have h := ih (s ++ [c]) true (if inString then count else count + 1)
        cases inString with
        | false =>
            simp only [Bool.toNat_true, Bool.false_eq_true, if_false] at h
            simp only [Bool.toNat_false, Bool.false_eq_true, if_false]
            omega
        | true => exact h
      · rw [if_neg hc, if_neg hc]
        have h := ih [] false (count + 1)
        rw [Bool.toNat_false] at h
        rw [List.length_append, List.length_cons]
        cases inString with
        | false =>
            simp only [Bool.toNat_false, Bool.false_eq_true, if_false, List.length_nil]
            omega
        | true =>
            simp only [Bool.toNat_true, if_true, List.length_singleton]
            omega

/-- What has been stored, and room for `n` more. -/
def stored (done : List Var) (n : Nat) : List (Option Var) :=
  done.map some ++ List.replicate n none

theorem storeAt_stored (done : List Var) (n : Nat) (v : Var) :
    storeAt (stored done (n + 1)) (done.length + 1) v = some (stored (done ++ [v]) n) := by
  have hlen : (stored done (n + 1)).length = done.length + (n + 1) := by
    rw [stored, List.length_append, List.length_map, List.length_replicate]
  have hset : (stored done (n + 1)).set done.length (some v) = stored (done ++ [v]) n := by
    rw [stored, List.set_append_right _ _ (by rw [List.length_map]), List.length_map, Nat.sub_self,
      List.replicate_succ, List.set_cons_zero, stored, List.map_append, List.append_assoc]
    rfl
  rw [storeAt, if_pos (by omega), Nat.add_sub_cancel, hset]

theorem storeString_stored {inString : Bool} (done : List Var) (n : Nat) (s : Str) :
    storeString (stored done (n + inString.toNat)) (done.length + 1) inString s =
      some (stored (done ++ if inString then [Var.str s] else []) n,
        (done ++ if inString then [Var.str s] else []).length + 1) := by
  cases inString with
  | false => simp [storeString]
  | true =>
      rw [storeString, if_pos rfl, Bool.toNat_true, storeAt_stored]
      simp

/-- The second pass stores the runs in the places that there are for them. -/
theorem storeRuns_eq (done : List Var) (inString : Bool) (s bytes : Str) :
    storeRuns (stored done (decodeRuns s inString bytes).length) (done.length + 1) inString s bytes =
      some ((done ++ decodeRuns s inString bytes).map some) := by
  induction bytes generalizing done inString s with
  | nil =>
      have hlen : (decodeRuns s inString []).length = 0 + inString.toNat := by
        cases inString <;> rfl
      rw [storeRuns, hlen, storeString_stored]
      simp [stored, decodeRuns]
  | cons c bytes ih =>
      rw [storeRuns, decodeRuns_cons]
      by_cases hc : isText c = true
      · rw [if_pos hc, if_pos hc]
        exact ih done true (s ++ [c])
      · rw [if_neg hc, if_neg hc]
        have hlen : ((if inString = true then [Var.str s] else []) ++
            .int (Int32.ofNat c.toNat) :: decodeRuns [] false bytes).length =
              (decodeRuns [] false bytes).length + 1 + inString.toNat := by
          cases inString <;> simp [Nat.add_comm]
        rw [hlen, storeString_stored]
        simp only [Option.bind_eq_bind, Option.bind_some]
        rw [storeAt_stored]
        have h := ih ((done ++ if inString then [Var.str s] else []) ++ [.int (Int32.ofNat c.toNat)]) false []
        rw [List.length_append, List.length_singleton] at h
        simp only [Option.bind_some]
        rw [h]
        simp

/-- Each element is stored, and there is no other place. -/
theorem decodeLoops_eq (bytes : Str) : decodeLoops bytes = some ((decodeRuns [] false bytes).map some) := by
  have hcount := countRuns_eq [] false 0 bytes
  rw [Bool.toNat_false, Nat.add_zero, Nat.zero_add] at hcount
  have h := storeRuns_eq [] false [] bytes
  rw [decodeLoops, hcount]
  exact h

/-! ## Encoding what has been decoded -/

theorem encodeBinary_byte (c : UInt8) : encodeBinary (.int (Int32.ofNat c.toNat)) = some [c] := by
  have hc : c.toNat < 256 := c.toNat_lt
  have hint : (Int32.ofNat c.toNat).toInt = c.toNat := Int32.toInt_ofNat_of_lt (by omega)
  have hbound : (256 : Int32).toInt = 256 := rfl
  have hrange : 0 ≤ Int32.ofNat c.toNat ∧ Int32.ofNat c.toNat < 256 := by
    rw [Int32.le_iff_toInt_le, Int32.lt_iff_toInt_lt, hint, hbound]
    exact ⟨Int.natCast_nonneg _, by omega⟩
  rw [encodeBinary, if_pos hrange, hint, Int.toNat_natCast, UInt8.ofNat_toNat]

theorem encodeBinaryList_bytes (bytes : Str) :
    encodeBinaryList (bytes.map fun c => .int (Int32.ofNat c.toNat)) = some bytes := by
  induction bytes with
  | nil => rfl
  | cons c bytes ih =>
      rw [List.map_cons, encodeBinaryList, encodeBinary_byte, ih]
      rfl

/-- The runs, the one that has been begun with them, are encoded as the bytes they are runs of. -/
theorem encodeBinaryList_runs {s : Str} {inString : Bool} (h : inString = false → s = [])
    (bytes : Str) : encodeBinaryList (decodeRuns s inString bytes) = some (s ++ bytes) := by
  induction bytes generalizing s inString with
  | nil =>
      cases inString with
      | false => rw [h rfl]; rfl
      | true => simp [decodeRuns, encodeBinaryList, encodeBinary]
  | cons c bytes ih =>
      rw [decodeRuns_cons]
      by_cases hc : isText c = true
      · rw [if_pos hc, ih (s := s ++ [c]) (fun h => absurd h (by simp)), List.append_assoc]
        rfl
      · rw [if_neg hc]
        have hrest : encodeBinaryList (.int (Int32.ofNat c.toNat) :: decodeRuns [] false bytes) =
            some (c :: bytes) := by
          rw [encodeBinaryList, encodeBinary_byte, ih fun _ => rfl]
          rfl
        cases inString with
        | false => rw [h rfl]; exact hrest
        | true =>
            rw [if_pos rfl, List.singleton_append, encodeBinaryList, hrest, encodeBinary]
            rfl

/-! ## The codec -/

/-- What `decode_binary` makes of the bytes is encoded as these bytes. -/
theorem encodeBinary_decoded (bytes : Str) (fully : Option Var) :
    encodeBinaryList (if fully.any isTrue then bytes.map fun c => .int (Int32.ofNat c.toNat)
      else decodeRuns [] false bytes) = some bytes := by
  by_cases hfully : fully.any isTrue = true
  · rw [if_pos hfully]
    exact encodeBinaryList_bytes bytes
  · rw [if_neg hfully]
    exact encodeBinaryList_runs (fun _ => rfl) bytes

theorem bfDecodeBinary_some {s bytes : Str} (h : binaryToRawBytes s = some bytes)
    (fully : Option Var) : bfDecodeBinary s fully =
      .ok (.list (if fully.any isTrue then bytes.map fun c => .int (Int32.ofNat c.toNat)
        else decodeRuns [] false bytes)) := by
  rw [bfDecodeBinary, h]
  by_cases hfully : fully.any isTrue = true
  · simp only [hfully, if_true]
  · simp only [hfully]
    rfl

/-- The encoding of a list that stands for some bytes is a string that stands for them. -/
theorem bfEncodeBinary_list {l : List Var} {bytes : Str} (h : encodeBinaryList l = some bytes) :
    bfEncodeBinary [.list l] = .ok (.str (rawBytesToBinary bytes)) := by
  have hargs : encodeBinaryList [.list l] = some bytes := by
    simp [encodeBinaryList, encodeBinary, h]
  rw [bfEncodeBinary, hargs]

theorem digit_ne_zero {n : Nat} (h : n < 16) : digit n ≠ 0 := by
  have hall : ∀ n < 16, digit n ≠ 0 := by decide
  exact hall n h

/-- There is no NUL in a string that has been made of bytes. -/
theorem zero_notMem_rawBytesToBinary (bytes : Str) : (0 : UInt8) ∉ rawBytesToBinary bytes := by
  rw [rawBytesToBinary, List.mem_flatMap]
  rintro ⟨c, -, h⟩
  have hc := c.toNat_lt
  split at h
  next hgraph =>
    cases List.mem_singleton.mp h
    exact absurd hgraph (by decide)
  next =>
    rcases List.mem_cons.mp h with h | h
    · exact absurd h (by decide)
    · rcases List.mem_cons.mp h with h | h
      · exact digit_ne_zero (by omega) h.symm
      · exact digit_ne_zero (by omega) (List.mem_singleton.mp h).symm

/-- What `binary_to_raw_bytes` makes of a string, which it reads to its end at most. -/
theorem rawBytesLoop_string {s : Str} (hs : (0 : UInt8) ∉ s) {fuel : Nat} (hfuel : s.length < fuel) :
    rawBytesLoop s fuel 0 [] = some (.ok (binaryToRawBytes s)) := by
  rw [rawBytesLoop_spec hs (Nat.zero_le _) (by omega), List.drop_zero]
  simp

end Waverous
