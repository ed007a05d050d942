import Waverous.DbHierarchy
import Waverous.StrSearch

/-! # Matching objects — `match.c`

    `match_contents` looks through the contents of the player and of the place the player is in.
    Each object is compared by its name and its aliases; the search is given up when a second
    object has the name asked for. -/

namespace Waverous.Db

open LinkedForest

/-- AMBIGUOUS. -/
def ambiguous : Objid := -2

/-- FAILED_MATCH. -/
def failedMatch : Objid := -3

/-- `match_data`, but for the name. -/
structure MatchData where
  exactOid : Objid
  partialOid : Objid
  deriving DecidableEq

/-- One name of the object `oid`; `none` is `return 1`. -/
def matchName (name : Str) (oid : Objid) (d : MatchData) (candidate : Str) : Option MatchData :=
  if strnEq false candidate name name.length then
    if candidate.length = name.length then
      if d.exactOid = nothing ∨ d.exactOid = oid then some { d with exactOid := oid } else none
    else if d.partialOid = failedMatch ∨ d.partialOid = oid then some { d with partialOid := oid }
    else some { d with partialOid := ambiguous }
  else some d

section

variable (s : State)

def aliasesName : Str := Str.ofString "aliases"

/-- `aliases`. -/
def aliases (oid : Objid) : Option (List Var) := do
  match ← findPropertyValue s oid aliasesName with
  | some (_, .list l) => some l
  | _ => some []

/-- What is compared with the name: an alias that is no string is not. -/
def candidates (o : Object) (names : List Var) : List Str :=
  o.name :: names.filterMap fun v => match v with | .str n => some n | _ => none

/-- The names that the loop of `match_proc` comes to. -/
def namesOf (oid : Objid) : Option (List Str) := do
  let o ← findObject s oid
  let names ← aliases s oid
  some (candidates o names)

/-- `match_proc`; the inner `none` is `return 1`. -/
def matchProc (name : Str) (d : MatchData) (oid : Objid) : Option (Option MatchData) := do
  let names ← namesOf s oid
  some (names.foldlM (matchName name oid) d)

/-- The loop of `db_for_all_contents`. -/
def forAllContents {α : Type} (func : α → Objid → Option (Option α)) :
    Nat → Objid → α → Option (Option α)
  | 0, c, data => if c = nothing then some (some data) else none
  | fuel + 1, c, data =>
      if c = nothing then some (some data)
      else do
        match ← func data c with
        | none => some none
        | some data => do
          let o ← findObject s c
          forAllContents func fuel o.next data

/-- One round of the loop of `match_contents`. -/
def matchContentsOf (name : Str) (oid : Objid) (d : MatchData) : Option (Option MatchData) :=
  match findObject s oid with
  | none => some (some d)
  | some o => forAllContents s (matchProc s name) s.numObjects o.contents d

/-- `match_contents`. -/
def matchContents (player : Objid) (name : Str) : Option Objid :=
  match findObject s player with
  | none => some failedMatch
  | some o => do
      match ← matchContentsOf s name player ⟨nothing, failedMatch⟩ with
      | none => some ambiguous
      | some d => do
        match ← matchContentsOf s name o.location d with
        | none => some ambiguous
        | some d => some (if d.exactOid ≠ nothing then d.exactOid else d.partialOid)

/-! ## What is to be found -/

/-- The object is at hand: in the contents of the player or of the player's location. -/
def AtHand (player x : Objid) : Prop :=
  ∃ o, findObject s player = some o ∧ ∃ oid l, (oid = player ∨ oid = o.location) ∧
    contentsOf s oid = some l ∧ x ∈ l

/-- The name or an alias of an object. -/
def NameOf (x : Objid) (n : Str) : Prop :=
  ∃ o, findObject s x = some o ∧
    (n = o.name ∨ ∃ l, aliases s x = some l ∧ Var.str n ∈ l)

/-- The object has the name, but for case. -/
def Exactly (player : Objid) (name : Str) (x : Objid) : Prop :=
  AtHand s player x ∧ ∃ n, NameOf s x n ∧ n.map cmap = name.map cmap

/-- The object has a name that goes on behind the name, but for case. -/
def Partially (player : Objid) (name : Str) (x : Objid) : Prop :=
  AtHand s player x ∧ ∃ n, NameOf s x n ∧ name.map cmap <+: n.map cmap ∧ name.length < n.length

end

/-- The result when `P` holds of no object, of one or of several. -/
structure Chosen (P : Objid → Prop) (zero r : Objid) : Prop where
  none : (∀ x, ¬ P x) → r = zero
  one : ∀ x, P x → (∀ y, P y → y = x) → r = x
  several : ∀ x y, P x → P y → x ≠ y → r = ambiguous

/-! ## The search through a list of names -/

/-- One object more. -/
theorem Chosen.add {P : Objid → Prop} {zero r x : Objid} (h : Chosen P zero r)
    (hP : ∀ y, P y → 0 ≤ y) (hx : 0 ≤ x) (hzero : zero < 0) (hne : zero ≠ ambiguous) :
    Chosen (fun y => P y ∨ y = x) zero (if r = zero ∨ r = x then x else ambiguous) where
  none hnone := absurd (.inr rfl) (hnone x)
  one y hy honly := by
    have hxy : x = y := honly x (.inr rfl)
    subst hxy
    refine if_pos ?_
    by_cases hex : ∃ z, P z
    · obtain ⟨z, hz⟩ := hex
      have hzx : z = x := honly z (.inl hz)
      subst hzx
      exact .inr (h.one z hz fun w hw => honly w (.inl hw))
    · exact .inl (h.none fun z hz => hex ⟨z, hz⟩)
  several y z hy hz hyz := by
    -- one of the two is not `x`
    obtain ⟨w, hw, hwx⟩ : ∃ w, P w ∧ w ≠ x := by
      by_cases hyx : y = x
      · have hzx : z ≠ x := fun h => hyz (hyx.trans h.symm)
        exact ⟨z, hz.resolve_right hzx, hzx⟩
      · exact ⟨y, hy.resolve_right hyx, hyx⟩
    refine if_neg ?_
    by_cases honly : ∀ v, P v → v = w
    · rw [h.one w hw honly]
      rintro (h' | h')
      · exact absurd (h' ▸ hP w hw) (Int.not_le.mpr hzero)
      · exact hwx h'
    · obtain ⟨v, hv, hvw⟩ : ∃ v, P v ∧ v ≠ w := by
        by_contra hno
        exact honly fun v hv => by_contra fun hvw => hno ⟨v, hv, hvw⟩
      rw [h.several v w hv hw hvw]
      rintro (h' | h')
      · exact hne h'.symm
      · rw [← h'] at hx
        exact absurd hx (by decide)

theorem Chosen.congr {P Q : Objid → Prop} {zero r : Objid} (h : Chosen P zero r)
    (hPQ : ∀ x, P x ↔ Q x) : Chosen Q zero r := by
  have hP : P = Q := funext fun x => propext (hPQ x)
  exact hP ▸ h

/-- What is chosen is determined. -/
theorem Chosen.unique {P : Objid → Prop} {zero r r' : Objid} (h : Chosen P zero r)
    (h' : Chosen P zero r') : r = r' := by
  by_cases hex : ∃ x, P x
  · obtain ⟨x, hx⟩ := hex
    by_cases honly : ∀ y, P y → y = x
    · rw [h.one x hx honly, h'.one x hx honly]
    · obtain ⟨y, hy, hyx⟩ : ∃ y, P y ∧ y ≠ x := by
        by_contra hno
        exact honly fun y hy => by_contra fun hyx => hno ⟨y, hy, hyx⟩
      rw [h.several y x hy hx hyx, h'.several y x hy hx hyx]
  · have hnone : ∀ x, ¬ P x := fun x hx => hex ⟨x, hx⟩
    rw [h.none hnone, h'.none hnone]

section

variable (name : Str)

/-- Among the names seen there is the name itself, for the object. -/
def SeenExactly (seen : List (Objid × Str)) (x : Objid) : Prop :=
  ∃ n, (x, n) ∈ seen ∧ n.map cmap = name.map cmap

def SeenPartially (seen : List (Objid × Str)) (x : Objid) : Prop :=
  ∃ n, (x, n) ∈ seen ∧ name.map cmap <+: n.map cmap ∧ name.length < n.length

/-- What the search has come to with the names seen: it goes on, or there are two objects. -/
def Outcome (seen : List (Objid × Str)) : Option MatchData → Prop
  | none => ∃ x y, SeenExactly name seen x ∧ SeenExactly name seen y ∧ x ≠ y
  | some d => (∀ x y, SeenExactly name seen x → SeenExactly name seen y → x = y) ∧
      Chosen (SeenExactly name seen) nothing d.exactOid ∧
      Chosen (SeenPartially name seen) failedMatch d.partialOid

end

variable {name : Str}

theorem seenExactly_append {seen : List (Objid × Str)} {x y : Objid} {n : Str} :
    SeenExactly name (seen ++ [(x, n)]) y ↔
      SeenExactly name seen y ∨ (y = x ∧ n.map cmap = name.map cmap) := by
  simp only [SeenExactly, List.mem_append, List.mem_singleton, Prod.mk.injEq]
  constructor
  · rintro ⟨m, hm | ⟨rfl, rfl⟩, heq⟩
    · exact .inl ⟨m, hm, heq⟩
    · exact .inr ⟨rfl, heq⟩
  · rintro (⟨m, hm, heq⟩ | ⟨rfl, heq⟩)
    · exact ⟨m, .inl hm, heq⟩
    · exact ⟨n, .inr ⟨rfl, rfl⟩, heq⟩

theorem seenPartially_append {seen : List (Objid × Str)} {x y : Objid} {n : Str} :
    SeenPartially name (seen ++ [(x, n)]) y ↔ SeenPartially name seen y ∨
      (y = x ∧ name.map cmap <+: n.map cmap ∧ name.length < n.length) := by
  simp only [SeenPartially, List.mem_append, List.mem_singleton, Prod.mk.injEq]
  constructor
  · rintro ⟨m, hm | ⟨rfl, rfl⟩, heq⟩
    · exact .inl ⟨m, hm, heq⟩
    · exact .inr ⟨rfl, heq⟩
  · rintro (⟨m, hm, heq⟩ | ⟨rfl, heq⟩)
    · exact ⟨m, .inl hm, heq⟩
    · exact ⟨n, .inr ⟨rfl, rfl⟩, heq⟩

theorem matchName_spec {seen : List (Objid × Str)} {x : Objid} {n : Str} {d : MatchData}
    (h : Outcome name seen (some d)) (hseen : ∀ a ∈ seen, 0 ≤ a.1) (hx : 0 ≤ x) :
    Outcome name (seen ++ [(x, n)]) (matchName name x d n) := by
  obtain ⟨hone, hexact, hlonger⟩ := h
  have hE : ∀ y, SeenExactly name seen y → 0 ≤ y := fun y ⟨m, hm, _⟩ => hseen _ hm
  have hP : ∀ y, SeenPartially name seen y → 0 ≤ y := fun y ⟨m, hm, _⟩ => hseen _ hm
  -- a name that is no match changes nothing
  have hsameE : n.map cmap ≠ name.map cmap → ∀ y,
      SeenExactly name seen y ↔ SeenExactly name (seen ++ [(x, n)]) y := by
    intro hne y
    rw [seenExactly_append]
    exact ⟨.inl, fun h => h.resolve_right fun h => hne h.2⟩
  have hsameP : ¬ (name.map cmap <+: n.map cmap ∧ name.length < n.length) → ∀ y,
      SeenPartially name seen y ↔ SeenPartially name (seen ++ [(x, n)]) y := by
    intro hne y
    rw [seenPartially_append]
    exact ⟨.inl, fun h => h.resolve_right fun h => hne h.2⟩
  rw [matchName]
  by_cases hpre : strnEq false n name name.length = true
  · rw [if_pos hpre]
    have hpre' : name.map cmap <+: n.map cmap := strnEq_iff.mp hpre
    have hlen := hpre'.length_le
    rw [List.length_map, List.length_map] at hlen
    by_cases heq : n.length = name.length
    · rw [if_pos heq]
      have hname : n.map cmap = name.map cmap :=
        (hpre'.eq_of_length (by rw [List.length_map, List.length_map, heq])).symm
      have hP' := hlonger.congr (hsameP fun h => absurd h.2 (by omega))
      have hiff : ∀ y, SeenExactly name (seen ++ [(x, n)]) y ↔ SeenExactly name seen y ∨ y = x := by
        intro y
        rw [seenExactly_append]
        exact or_congr_right (and_iff_left hname)
      have hfound : ∀ y, SeenExactly name seen y → d.exactOid = y := fun y hy =>
        hexact.one y hy fun z hz => hone z y hz hy
      by_cases hfree : d.exactOid = nothing ∨ d.exactOid = x
      · rw [if_pos hfree]
        have hall : ∀ y, SeenExactly name (seen ++ [(x, n)]) y → y = x := by
          intro y hy
          rcases (hiff y).mp hy with hy | rfl
          · rcases hfree with hfree | hfree
            · have hnone : y = nothing := (hfound y hy).symm.trans hfree
              exact absurd (hnone ▸ hE y hy) (by decide)
            · exact (hfound y hy).symm.trans hfree
          · rfl
        refine ⟨fun y z hy hz => (hall y hy).trans (hall z hz).symm, ⟨?_, ?_, ?_⟩, hP'⟩
        · exact fun hnone => absurd ((hiff x).mpr (.inr rfl)) (hnone x)
        · exact fun y hy _ => (hall y hy).symm
        · exact fun y z hy hz hne => absurd ((hall y hy).trans (hall z hz).symm) hne
      · rw [if_neg hfree]
        rw [not_or] at hfree
        obtain ⟨y, hy⟩ : ∃ y, SeenExactly name seen y := by
          by_contra hno
          exact hfree.1 (hexact.none fun y hy => hno ⟨y, hy⟩)
        exact ⟨y, x, (hiff y).mpr (.inl hy), (hiff x).mpr (.inr rfl),
          fun hyx => hfree.2 ((hfound y hy).trans hyx)⟩
    · rw [if_neg heq]
      have hE' := hsameE fun h => heq (by simpa using congrArg List.length h)
      have hiff : ∀ y, SeenPartially name seen y ∨ y = x ↔
          SeenPartially name (seen ++ [(x, n)]) y := by
        intro y
        rw [seenPartially_append]
        exact or_congr_right (and_iff_left ⟨hpre', by omega⟩).symm
      have hadd := (hlonger.add hP hx (by decide) (by decide)).congr hiff
      have hone' : ∀ y z, SeenExactly name (seen ++ [(x, n)]) y →
          SeenExactly name (seen ++ [(x, n)]) z → y = z := fun y z hy hz =>
        hone y z ((hE' y).mpr hy) ((hE' z).mpr hz)
      split
      next hc =>
        rw [if_pos hc] at hadd
        exact ⟨hone', hexact.congr hE', hadd⟩
      next hc =>
        rw [if_neg hc] at hadd
        exact ⟨hone', hexact.congr hE', hadd⟩
  · rw [if_neg hpre]
    have hpre' : ¬ name.map cmap <+: n.map cmap := fun h => hpre (strnEq_iff.mpr h)
    have hE' := hsameE fun h => hpre' (h ▸ List.prefix_rfl)
    exact ⟨fun y z hy hz => hone y z ((hE' y).mpr hy) ((hE' z).mpr hz), hexact.congr hE',
      hlonger.congr (hsameP fun h => hpre' h.1)⟩

theorem Outcome.more {seen : List (Objid × Str)} (h : Outcome name seen none)
    (more : List (Objid × Str)) : Outcome name (seen ++ more) none := by
  obtain ⟨x, y, ⟨n, hn, hx⟩, ⟨m, hm, hy⟩, hne⟩ := h
  exact ⟨x, y, ⟨n, List.mem_append_left _ hn, hx⟩, ⟨m, List.mem_append_left _ hm, hy⟩, hne⟩

/-- The search through the names of objects, one after the other. -/
def searchNames (name : Str) (d : MatchData) (l : List (Objid × Str)) : Option MatchData :=
  l.foldlM (fun d a => matchName name a.1 d a.2) d

theorem searchNames_spec {seen l : List (Objid × Str)} {d : MatchData}
    (h : Outcome name seen (some d)) (hseen : ∀ a ∈ seen, 0 ≤ a.1) (hl : ∀ a ∈ l, 0 ≤ a.1) :
    Outcome name (seen ++ l) (searchNames name d l) := by
  induction l generalizing seen d with
  | nil =>
      rw [List.append_nil]
      exact h
  | cons a l ih =>
      obtain ⟨x, n⟩ := a
      have hx : 0 ≤ x := hl _ List.mem_cons_self
      have hstep := matchName_spec (n := n) h hseen hx
      rw [searchNames, List.foldlM_cons, List.append_cons]
      cases hname : matchName name x d n with
      | none =>
          rw [hname] at hstep
          exact hstep.more l
      | some d' =>
          rw [hname] at hstep
          refine ih hstep ?_ fun a ha => hl a (List.mem_cons_of_mem _ ha)
          intro a ha
          rcases List.mem_append.mp ha with ha | ha
          · exact hseen a ha
          · cases List.mem_singleton.mp ha
            exact hx

theorem outcome_nil : Outcome name [] (some ⟨nothing, failedMatch⟩) := by
  refine ⟨?_, ⟨fun _ => rfl, ?_, ?_⟩, ⟨fun _ => rfl, ?_, ?_⟩⟩
  · rintro x y ⟨n, hn, -⟩
    exact nomatch hn
  · rintro x ⟨n, hn, -⟩
    exact nomatch hn
  · rintro x y ⟨n, hn, -⟩
    exact nomatch hn
  · rintro x ⟨n, hn, -⟩
    exact nomatch hn
  · rintro x y ⟨n, hn, -⟩
    exact nomatch hn

theorem searchNames_append (d : MatchData) (l l' : List (Objid × Str)) :
    searchNames name d (l ++ l') = (searchNames name d l).bind (searchNames name · l') :=
  List.foldlM_append

/-! ## The search through the contents -/

variable {s : State}

/-- The enumeration visits the contents in turn, until it is given up. -/
theorem forAllContents_eq {α : Type} {func : α → Objid → Option (Option α)}
    {f : α → Objid → Option α} {fuel : Nat} {c : Objid} {cs : List Objid} {data : α}
    (hseg : Seg (nextOf (place.get s)) c cs nothing) (hlen : cs.length ≤ fuel)
    (hfunc : ∀ x ∈ cs, ∀ d, func d x = some (f d x)) :
    forAllContents s func fuel c data = some (cs.foldlM f data) := by
  induction cs generalizing fuel c data with
  | nil =>
      have hc : c = nothing := hseg
      cases fuel with
      | zero => rw [forAllContents, if_pos hc]; rfl
      | succ fuel => rw [forAllContents, if_pos hc]; rfl
  | cons x cs ih =>
      obtain ⟨rfl, m, hnext, hseg⟩ := hseg
      obtain ⟨fuel, rfl⟩ : ∃ n, fuel = n + 1 := ⟨fuel - 1, by
        rw [List.length_cons] at hlen
        omega⟩
      obtain ⟨l, hl, rfl⟩ : ∃ l, place.get s c = some l ∧ l.next = m := Option.map_eq_some_iff.mp hnext
      obtain ⟨o, ho, rfl⟩ := find_of_place hl
      have hne : c ≠ nothing := by
        rintro rfl
        exact nomatch ho
      rw [forAllContents, if_neg hne, hfunc c List.mem_cons_self, List.foldlM_cons]
      cases hf : f data c with
      | none => rfl
      | some data' =>
          show (do let o ← findObject s c; forAllContents s func fuel o.next data') = _
          rw [ho]
          exact ih hseg (Nat.le_of_succ_le_succ hlen) fun y hy => hfunc y (List.mem_cons_of_mem _ hy)

theorem mem_candidates {o : Object} {names : List Var} {n : Str} :
    n ∈ candidates o names ↔ n = o.name ∨ Var.str n ∈ names := by
  rw [candidates, List.mem_cons, List.mem_filterMap]
  refine or_congr_right ⟨?_, fun h => ⟨_, h, rfl⟩⟩
  rintro ⟨v, hv, heq⟩
  split at heq
  next =>
    cases heq
    exact hv
  next => exact nomatch heq

theorem namesOf_spec (hw : WellFormed s) {x : Objid} {o : Object} (ho : findObject s x = some o) :
    ∃ names, namesOf s x = some names ∧ ∀ n, n ∈ names ↔ NameOf s x n := by
  obtain ⟨res, hres, -⟩ := findPropertyValue_spec hw ho aliasesName
  obtain ⟨l, hl⟩ : ∃ l, aliases s x = some l := by
    rw [aliases, hres]
    simp only [Option.bind_eq_bind, Option.bind_some]
    split
    · exact ⟨_, rfl⟩
    · exact ⟨_, rfl⟩
  refine ⟨candidates o l, ?_, ?_⟩
  · rw [namesOf, ho, hl]
    rfl
  · intro n
    rw [mem_candidates]
    constructor
    · exact fun h => ⟨o, ho, h.imp_right fun h => ⟨l, hl, h⟩⟩
    · rintro ⟨o', ho', h⟩
      cases ho.symm.trans ho'
      refine h.imp_right ?_
      rintro ⟨l', hl', h⟩
      cases hl.symm.trans hl'
      exact h

/-- Names object by object, and names in one list. -/
theorem foldlM_names (names : Objid → List Str) (cs : List Objid) (d : MatchData) :
    cs.foldlM (fun d x => (names x).foldlM (matchName name x) d) d =
      searchNames name d (cs.flatMap fun x => (names x).map (x, ·)) := by
  induction cs generalizing d with
  | nil => rfl
  | cons x cs ih =>
      rw [List.foldlM_cons, List.flatMap_cons, searchNames_append, searchNames, List.foldlM_map]
      show ((names x).foldlM (matchName name x) d).bind _ = _
      congr 1
      funext d'
      exact ih d'

/-- A round of the loop is the search through the names of what an object contains. -/
theorem matchContentsOf_spec (hw : WellFormed s) (name : Str) (oid : Objid) :
    ∃ l, (∀ d, matchContentsOf s name oid d = some (searchNames name d l)) ∧
      (∀ a ∈ l, 0 ≤ a.1) ∧
      ∀ x n, (x, n) ∈ l ↔ (∃ cs, contentsOf s oid = some cs ∧ x ∈ cs) ∧ NameOf s x n := by
  cases ho : findObject s oid with
  | none =>
      refine ⟨[], ?_, List.forall_mem_nil _, ?_⟩
      · intro d
        rw [matchContentsOf, ho]
        rfl
      · intro x n
        refine ⟨fun h => absurd h List.not_mem_nil, ?_⟩
        rintro ⟨⟨cs, hcs, -⟩, -⟩
        rw [contentsOf, ho] at hcs
        cases hcs
  | some o =>
      obtain ⟨L, hf⟩ := hw.place
      have hcs := contentsOf_eq hf ho
      have hfirst : firstOf (place.get s) oid = some o.contents := by
        rw [firstOf, place_get ho]
        rfl
      have hobj : ∀ x ∈ L oid, ∃ o, findObject s x = some o := by
        intro x hx
        obtain ⟨l, hl, -⟩ := Option.map_eq_some_iff.mp (hf.mem_iff.mp hx).2
        obtain ⟨o, ho, -⟩ := find_of_place hl
        exact ⟨o, ho⟩
      have hnames : ∀ x ∈ L oid, ∃ names, namesOf s x = some names ∧
          ∀ n, n ∈ names ↔ NameOf s x n := fun x hx =>
        (hobj x hx).elim fun o ho => namesOf_spec hw ho
      refine ⟨(L oid).flatMap fun x => ((namesOf s x).getD []).map (x, ·), ?_, ?_, ?_⟩
      · intro d
        rw [matchContentsOf, ho]
        refine (forAllContents_eq (f := fun d x =>
          ((namesOf s x).getD []).foldlM (matchName name x) d) (hf.seg hfirst)
          (length_contents_le hf oid) ?_).trans ?_
        · intro x hx d
          obtain ⟨names, hn, -⟩ := hnames x hx
          simp only [matchProc, hn, Option.bind_eq_bind, Option.bind_some, Option.getD_some]
        · rw [foldlM_names]
      · intro a ha
        obtain ⟨x, hx, ha⟩ := List.mem_flatMap.mp ha
        obtain ⟨n, -, rfl⟩ := List.mem_map.mp ha
        obtain ⟨o, ho⟩ := hobj x hx
        cases x with
        | ofNat k => exact Int.natCast_nonneg k
        | negSucc k => cases ho
      · intro x n
        rw [List.mem_flatMap, hcs]
        constructor
        · rintro ⟨y, hy, ha⟩
          obtain ⟨names, hn, hmem⟩ := hnames y hy
          rw [hn] at ha
          obtain ⟨m, hm, ⟨⟩⟩ := List.mem_map.mp ha
          exact ⟨⟨_, rfl, hy⟩, (hmem _).mp hm⟩
        · rintro ⟨⟨cs, ⟨⟩, hx⟩, hname⟩
          obtain ⟨names, hn, hmem⟩ := hnames x hx
          refine ⟨x, hx, ?_⟩
          rw [hn]
          exact List.mem_map.mpr ⟨n, (hmem n).mpr hname, rfl⟩

/-- The result is what the names of the objects at hand say it is. -/
theorem matchContents_outcome (hw : WellFormed s) {player : Objid} {o : Object}
    (ho : findObject s player = some o) (name : Str) :
    ∃ seen r, Outcome name seen r ∧
      (∀ x n, (x, n) ∈ seen ↔ AtHand s player x ∧ NameOf s x n) ∧
      matchContents s player name = some (match r with
        | none => ambiguous
        | some d => if d.exactOid ≠ nothing then d.exactOid else d.partialOid) := by
  obtain ⟨l, hl, hpos, hmem⟩ := matchContentsOf_spec hw name player
  obtain ⟨l', hl', hpos', hmem'⟩ := matchContentsOf_spec hw name o.location
  refine ⟨l ++ l', searchNames name ⟨nothing, failedMatch⟩ (l ++ l'), ?_, ?_, ?_⟩
  · refine searchNames_spec outcome_nil (List.forall_mem_nil _) fun a ha => ?_
    rcases List.mem_append.mp ha with ha | ha
    · exact hpos a ha
    · exact hpos' a ha
  · intro x n
    rw [List.mem_append, hmem, hmem', ← or_and_right]
    refine and_congr_left fun _ => ?_
    constructor
    · rintro (⟨cs, hcs, hx⟩ | ⟨cs, hcs, hx⟩)
      · exact ⟨o, ho, player, cs, .inl rfl, hcs, hx⟩
      · exact ⟨o, ho, o.location, cs, .inr rfl, hcs, hx⟩
    · rintro ⟨o', ho', oid, cs, hoid, hcs, hx⟩
      cases ho.symm.trans ho'
      rcases hoid with rfl | rfl
      · exact .inl ⟨cs, hcs, hx⟩
      · exact .inr ⟨cs, hcs, hx⟩
  · simp only [matchContents, ho, hl, searchNames_append, Option.bind_eq_bind, Option.bind_some]
    cases searchNames name ⟨nothing, failedMatch⟩ l with
    | none => rfl
    | some d =>
        simp only [hl', Option.bind_some]
        cases searchNames name d l' <;> rfl

/-- The object with the name, when there is one; else the object with a name that goes on behind
    it; AMBIGUOUS for several. -/
structure Matched (s : State) (player : Objid) (name : Str) (r : Objid) : Prop where
  exactly : (∃ x, Exactly s player name x) → Chosen (Exactly s player name) nothing r
  partially : (¬ ∃ x, Exactly s player name x) → Chosen (Partially s player name) failedMatch r

theorem Matched.unique {player player' : Objid} {s' : State} {r r' : Objid}
    (h : Matched s player name r) (h' : Matched s' player' name r')
    (hhand : ∀ x, AtHand s player x ↔ AtHand s' player' x)
    (hnames : ∀ x, AtHand s player x → ∀ n, NameOf s x n ↔ NameOf s' x n) : r = r' := by
  have hE : ∀ x, Exactly s' player' name x ↔ Exactly s player name x := fun x =>
    (and_congr_left' (hhand x).symm).trans
      (and_congr_right fun hx => exists_congr fun n => and_congr_left' (hnames x hx n).symm)
  have hP : ∀ x, Partially s' player' name x ↔ Partially s player name x := fun x =>
    (and_congr_left' (hhand x).symm).trans
      (and_congr_right fun hx => exists_congr fun n => and_congr_left' (hnames x hx n).symm)
  by_cases hex : ∃ x, Exactly s player name x
  · have hex' := (exists_congr hE).mpr hex
    exact (h.exactly hex).unique ((h'.exactly hex').congr hE)
  · have hex' : ¬ ∃ x, Exactly s' player' name x := fun h => hex ((exists_congr hE).mp h)
    exact (h.partially hex).unique ((h'.partially hex').congr hP)

theorem matchContents_matched (hw : WellFormed s) {player : Objid} (hplayer : valid s player = true)
    (name : Str) : ∃ r, matchContents s player name = some r ∧ Matched s player name r := by
  obtain ⟨o, ho⟩ := Option.isSome_iff_exists.mp hplayer
  obtain ⟨seen, r, hout, hseen, hrun⟩ := matchContents_outcome hw ho name
  have hE : ∀ x, SeenExactly name seen x ↔ Exactly s player name x := by
    intro x
    simp only [SeenExactly, hseen, Exactly, and_assoc, exists_and_left]
  have hP : ∀ x, SeenPartially name seen x ↔ Partially s player name x := by
    intro x
    simp only [SeenPartially, hseen, Partially, and_assoc, exists_and_left]
  refine ⟨_, hrun, ?_⟩
  cases r with
  | none =>
      obtain ⟨x, y, hx, hy, hne⟩ := hout
      rw [hE] at hx hy
      refine ⟨fun _ => ⟨?_, ?_, fun _ _ _ _ _ => rfl⟩, fun h => absurd ⟨x, hx⟩ h⟩
      · exact fun h => absurd hx (h x)
      · exact fun z _ honly => absurd ((honly x hx).trans (honly y hy).symm) hne
  | some d =>
      obtain ⟨hone, hexact, hlonger⟩ := hout
      constructor
      · rintro ⟨x, hx⟩
        rw [← hE] at hx
        have hfound : d.exactOid = x := hexact.one x hx fun y hy => hone y x hy hx
        have hne : x ≠ nothing := by
          obtain ⟨n, hn, -⟩ := hx
          obtain ⟨o', ho', -⟩ := ((hseen x n).mp hn).2
          rintro rfl
          exact nomatch ho'
        show Chosen _ _ (if d.exactOid ≠ nothing then d.exactOid else d.partialOid)
        rw [if_pos (hfound ▸ hne)]
        exact hexact.congr hE
      · intro hno
        have hnothing : d.exactOid = nothing := hexact.none fun x hx => hno ⟨x, (hE x).mp hx⟩
        show Chosen _ _ (if d.exactOid ≠ nothing then d.exactOid else d.partialOid)
        rw [if_neg (not_not_intro hnothing)]
        exact hlonger.congr hP

/-- The match in any database with a valid player; it is the same in another database with the
    same objects at hand and the same names of them, in whatever order. -/
theorem matchContents_spec (hw : WellFormed s) {player : Objid} (hplayer : valid s player = true)
    (name : Str) :
    (∃ r, matchContents s player name = some r ∧ Matched s player name r) ∧
    ∀ s', WellFormed s' → valid s' player = true → (∀ x, AtHand s player x ↔ AtHand s' player x) →
      (∀ x, AtHand s player x → ∀ n, NameOf s x n ↔ NameOf s' x n) →
      matchContents s' player name = matchContents s player name := by
  obtain ⟨r, hrun, hr⟩ := matchContents_matched hw hplayer name
  refine ⟨⟨r, hrun, hr⟩, fun s' hw' hplayer' hhand hnames => ?_⟩
  obtain ⟨r', hrun', hr'⟩ := matchContents_matched hw' hplayer' name
  rw [hrun, hrun', hr.unique hr' hhand hnames]

/-- A place with a player and two lamps in it. -/
def lampOps : List Op :=
  [.create nothing nothing nothing, .create 0 0 0, .create 0 0 0, .create 0 0 0,
    .addProp 0 2 aliasesName ⟨.list [.str (Str.ofString "Lamp")], by decide⟩
      (.list [.obj 0, .str [114]]),
    .addProp 0 3 aliasesName ⟨.list [.str (Str.ofString "lamplight"), .str (Str.ofString "lamps")],
      by decide⟩ (.list [.obj 0, .str [114]])]

/-- An object is moved, and no verb is called. -/
def putInto (s : State) (what «where» : Objid) : State :=
  match moveDecided s what ⟨what, «where»⟩ true fun _ _ => .notFound with
  | some (_, s') => s'
  | none => s

theorem putInto_wellFormed (hw : WellFormed s) (what «where» : Objid) :
    WellFormed (putInto s what «where») := by
  obtain ⟨p, s', hrun, hw', -⟩ := moveDecided_spec hw what ⟨what, «where»⟩ true fun _ _ => .notFound
  rw [putInto, hrun]
  exact hw'

def lampDb : State :=
  let s := (lampOps.foldlM (fun s op => step op s) emptyDb).getD emptyDb
  putInto (putInto (putInto s 1 0) 2 1) 3 0

theorem lampDb_wellFormed : WellFormed lampDb := by
  have hops : WellFormed ((lampOps.foldlM (fun s op => step op s) emptyDb).getD emptyDb) := by
    obtain ⟨s', hrun, hw⟩ := run_wellFormed emptyDb_wellFormed lampOps
    rw [Runs.run_ofPart_iff] at hrun
    rw [hrun]
    exact hw
  exact putInto_wellFormed (putInto_wellFormed (putInto_wellFormed hops 1 0) 2 1) 3 0

/-- The lamp that is named so is found, although the other one begins with the name. -/
theorem matchContents_lamp : ∃ r, matchContents lampDb 1 (Str.ofString "lamp") = some r ∧ r = 2 ∧
    Matched lampDb 1 (Str.ofString "lamp") r := by
  have hplayer : valid lampDb 1 = true := by decide +kernel
  obtain ⟨r, hrun, hr⟩ := (matchContents_spec lampDb_wellFormed hplayer (Str.ofString "lamp")).1
  have hlamp : matchContents lampDb 1 (Str.ofString "lamp") = some 2 := by decide +kernel
  exact ⟨r, hrun, Option.some.inj (hrun.symm.trans hlamp), hr⟩

end Waverous.Db
