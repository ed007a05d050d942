import Waverous.DbFrame
import Waverous.DbHierarchy
import Waverous.DbIdentity
import Waverous.DbVerbs

/-! # The table of verbs

    An entry tells what the walk up from its key finds for its name (`EntryOk`).  That
    depends on the verbs and the parents of the objects on the way and on nothing else, so
    an operation that leaves these alone leaves the entry right.  An object without
    verbs and children is on nobody's way. -/

namespace Waverous.Db

open LinkedForest Runs

variable {s s' : State} {oid x y : Objid} {o : Object} {os : List Object} {word : Word} {w w' : VerbDb}

/-! ## Names -/

theorem matchName_congr {a b : Str} (h : a.map cmap = b.map cmap) (v : Str) (star : Star) :
    matchName v a star = matchName v b star := by
  induction a generalizing b v star with
  | nil =>
      obtain rfl : b = [] := List.map_eq_nil_iff.mp h.symm
      rfl
  | cons c a ih =>
      obtain ⟨d, b, rfl, hd, hb⟩ := List.map_eq_cons_iff.mp h.symm
      simp only [matchName]
      split
      · rfl
      · rw [hd, ih hb.symm]

/-- `verbcasecmp` does not tell words that differ in case. -/
theorem verbcasecmp_congr {a b : Str} (h : strcaseEq a b = true) (verb : Str) :
    verbcasecmp verb a = verbcasecmp verb b := by
  have hmatch : ∀ fuel v, matchNames a fuel v = matchNames b fuel v := by
    intro fuel
    induction fuel with
    | zero => exact fun _ => rfl
    | succ fuel ih =>
        intro v
        cases v with
        | nil => rfl
        | cons c v => simp only [matchNames, matchName_congr (strcaseEq_iff.mp h), ih]
  exact hmatch _ _

theorem walkUp_congr {a b : Str} (h : strcaseEq a b = true) (os : List Object) :
    walkUp os ⟨none, a⟩ = walkUp os ⟨none, b⟩ := by
  have hfind : ∀ o, findVerbdefByName o ⟨none, a⟩ = findVerbdefByName o ⟨none, b⟩ := by
    intro o
    rw [findVerbdefByName, findVerbdefByName]
    congr 1
    funext v
    rw [Verbdef.named, Verbdef.named, verbcasecmp_congr h]
  rw [walkUp, walkUp]
  congr 1
  funext o
  rw [hfind]

/-! ## Walks -/

/-- What a walk sees of a verb. -/
def Verbdef.face (v : Verbdef) : Str × Nat × Nat := (v.name, v.addr, v.perms)

/-- And of an object. -/
def verbFace (o : Object) : Objid × List (Str × Nat × Nat) × Objid :=
  (o.id, o.verbdefs.map Verbdef.face, o.parent)

/-- A walk finds the same when it sees the same. -/
theorem walkUp_face {os' : List Object} (h : os'.map verbFace = os.map verbFace) (word : Word) :
    walkUp os' word = walkUp os word := by
  have hfind : ∀ o, (findVerbdefByName o word).map (fun n => (⟨o.id, n⟩ : VerbHandle))
      = ((verbFace o).2.1.findIdx? fun f =>
          (word.addr == some f.2.1 || verbcasecmp f.1 word.text) && f.2.2 &&& vfExec != 0).map
        fun n => ⟨(verbFace o).1, n⟩ := by
    intro o
    rw [findVerbdefByName, verbFace, List.findIdx?_map]
    rfl
  have hwalk : ∀ l : List Object, walkUp l word = (l.map verbFace).findSome? fun f =>
      (f.2.1.findIdx? fun f =>
        (word.addr == some f.2.1 || verbcasecmp f.1 word.text) && f.2.2 &&& vfExec != 0).map
      fun n => ⟨f.1, n⟩ := by
    intro l
    rw [walkUp, List.findSome?_map]
    congr 1
    funext o
    exact hfind o
  rw [hwalk, hwalk, h]

/-- A walk passes objects without verbs. -/
theorem walkUp_dropWhile (os : List Object) (word : Word) :
    walkUp (os.dropWhile fun o => o.verbdefs.isEmpty) word = walkUp os word := by
  induction os with
  | nil => rfl
  | cons o os ih =>
      cases hv : o.verbdefs with
      | nil =>
          have hnone : (findVerbdefByName o word).map (fun n => (⟨o.id, n⟩ : VerbHandle)) = none := by
            rw [findVerbdefByName, hv]
            rfl
          rw [List.dropWhile_cons, if_pos (by rw [hv]; rfl), ih, walkUp, walkUp, List.findSome?_cons,
            hnone]
      | cons v vs => rw [List.dropWhile_cons, if_neg (by rw [hv]; exact Bool.false_ne_true)]

/-- The first executable verb that the word names, if there is one, it names by its letters. -/
def byLetters (os : List Object) (word : Word) : Bool :=
  ((os.flatMap (·.verbdefs)).find? fun v => v.named word && v.perms &&& vfExec != 0).all
    fun v => verbcasecmp v.name word.text

/-- A search for less finds the same when what the search for more finds is good for both. -/
theorem findIdx?_of_find? {α : Type} {p q : α → Bool} (hpq : ∀ a, q a = true → p a = true)
    {l : List α} (h : ∀ a, l.find? p = some a → q a = true) : l.findIdx? p = l.findIdx? q := by
  induction l with
  | nil => rfl
  | cons a l ih =>
      rw [List.findIdx?_cons, List.findIdx?_cons]
      cases hp : p a with
      | true =>
          have hq : q a = true := h a (List.find?_cons_of_pos hp)
          rw [hq, if_pos rfl, if_pos rfl]
      | false =>
          have hq : q a = false := by
            cases hq : q a with
            | false => rfl
            | true => rw [← hp, hpq a hq]
          have hrest : l.findIdx? p = l.findIdx? q := ih fun b hb => h b (by
            rw [List.find?_cons_of_neg (by rw [hp]; exact Bool.false_ne_true)]
            exact hb)
          rw [hq, hrest]

/-- Then a copy of the word is as good as the word. -/
theorem walkUp_byLetters (h : byLetters os word = true) : walkUp os word = walkUp os word.copy := by
  induction os with
  | nil => rfl
  | cons o os ih =>
      rw [byLetters, List.flatMap_cons, List.find?_append, Option.all_eq_true] at h
      have hfind : findVerbdefByName o word = findVerbdefByName o word.copy := by
        refine findIdx?_of_find? ?_ ?_
        · intro v hv
          rw [Bool.and_eq_true] at hv ⊢
          refine ⟨?_, hv.2⟩
          rw [Verbdef.named, Bool.or_eq_true]
          exact .inr (by simpa [Verbdef.named, Word.copy] using hv.1)
        · intro v hv
          have hexec := List.find?_some hv
          have hletters := h v (by rw [hv]; rfl)
          rw [Bool.and_eq_true] at hexec ⊢
          exact ⟨by rw [Verbdef.named, Bool.or_eq_true]; exact .inr hletters, hexec.2⟩
      cases hn : findVerbdefByName o word with
      | some n =>
          have hn' := hfind.symm.trans hn
          rw [walkUp, walkUp, List.findSome?_cons, List.findSome?_cons, hn, hn']
          rfl
      | none =>
          have hn' := hfind.symm.trans hn
          have hnone : (o.verbdefs.find? fun v => v.named word && v.perms &&& vfExec != 0) = none :=
            List.find?_eq_none.mpr (by simpa [findVerbdefByName, List.findIdx?_eq_none_iff] using hn)
          have hrest : walkUp os word = walkUp os word.copy := by
            refine ih ?_
            rw [byLetters, Option.all_eq_true]
            intro v hv
            exact h v (by rw [hnone, Option.none_or]; exact hv)
          rw [walkUp, walkUp, List.findSome?_cons, List.findSome?_cons, hn, hn']
          exact hrest

/-- What is left of a way after its first steps is the way from there. -/
theorem Path.dropWhile (hw : WellFormed s) (h : Path s x os) (q : Object → Bool) :
    Path s (firstParentWithVerbs (os.dropWhile q)) (os.dropWhile q) := by
  induction h with
  | top hnone => exact .top (findObject_nothing s)
  | @step z o rest ho hrest ih =>
      by_cases hq : q o = true
      · rw [List.dropWhile_cons_of_pos hq]
        exact ih
      · rw [List.dropWhile_cons_of_neg hq]
        show Path s o.id (o :: rest)
        rw [hw.ids ho]
        exact .step ho hrest

/-- A way leads past the same faces when all of them are the same. -/
theorem Path.faces (h : Path s x os)
    (hsame : ∀ y, Below (descent.get s) y x →
      (findObject s' y).map verbFace = (findObject s y).map verbFace) :
    ∃ os', Path s' x os' ∧ os'.map verbFace = os.map verbFace := by
  induction h with
  | top hnone =>
      have := hsame _ (Below.refl _ _)
      rw [hnone, Option.map_none, Option.map_eq_none_iff] at this
      exact ⟨[], .top this, rfl⟩
  | @step x o os ho hos ih =>
      have hface := hsame _ (Below.refl _ _)
      rw [ho, Option.map_some] at hface
      obtain ⟨o', ho', heq⟩ := Option.map_eq_some_iff.mp hface
      obtain ⟨os', hos', hmap⟩ := ih fun y hy => hsame y (hy.step (up_descent ho))
      have hparent : o'.parent = o.parent := congrArg (fun f => f.2.2) heq
      refine ⟨o' :: os', .step ho' (hparent ▸ hos'), ?_⟩
      rw [List.map_cons, List.map_cons, heq, hmap]

/-! ## Entries -/

/-- An entry tells what a walk up from its key finds. -/
def EntryOk (s : State) (e : VcEntry) : Prop :=
  ∃ os, Path s e.oidKey os ∧ (∀ o ∈ os.head?, o.verbdefs ≠ []) ∧ (os = [] → e.oidKey = nothing) ∧
    e.h = walkUp os ⟨none, e.verbname⟩

/-- All entries do. -/
def VcOk (s : State) (vc : VcTable) : Prop := ∀ table ∈ vc, ∀ n, ∀ e ∈ table n, EntryOk s e

/-- An empty table has no wrong entries. -/
theorem VcOk.cleared (s : State) (vc : VcTable) : VcOk s (affectedCallableVerbLookup vc) := by
  intro table htable n e he
  obtain ⟨t, -, rfl⟩ := Option.map_eq_some_iff.mp htable
  exact nomatch he

/-- An entry stays right when everything on the way up from its key keeps its face. -/
theorem EntryOk.faces {e : VcEntry} (h : EntryOk s e)
    (hsame : ∀ y, Below (descent.get s) y e.oidKey →
      (findObject s' y).map verbFace = (findObject s y).map verbFace) : EntryOk s' e := by
  obtain ⟨os, hos, hhead, hnil, hh⟩ := h
  obtain ⟨os', hos', hmap⟩ := hos.faces hsame
  refine ⟨os', hos', ?_, ?_, ?_⟩
  · intro o' ho'
    have hhead' : os'.head?.map verbFace = os.head?.map verbFace := by
      rw [← List.head?_map, ← List.head?_map, hmap]
    rw [show os'.head? = some o' from ho', Option.map_some] at hhead'
    obtain ⟨o, ho, heq⟩ := Option.map_eq_some_iff.mp hhead'.symm
    have hverbs : o.verbdefs.map Verbdef.face = o'.verbdefs.map Verbdef.face :=
      congrArg (fun f => f.2.1) heq
    intro hempty
    rw [hempty, List.map_nil, List.map_eq_nil_iff] at hverbs
    exact hhead o ho hverbs
  · intro hempty
    rw [hempty, List.map_nil, eq_comm, List.map_eq_nil_iff] at hmap
    exact hnil hmap
  · rw [walkUp_face hmap, hh]

/-- So does the table when all objects keep their faces. -/
theorem VcOk.keeps {vc : VcTable} (h : VcOk s vc) (hk : Keeps verbFace s s') : VcOk s' vc :=
  fun table htable n e he => (h table htable n e he).faces fun y _ => hk.find y

/-- An object without children and verbs is not on the way up from the key of an entry. -/
theorem EntryOk.apart {L : Objid → List Objid} (hf : Forest nothing (descent.get s) L) {e : VcEntry}
    (h : EntryOk s e) (hne : y ≠ nothing) (hL : L y = [])
    (hverbs : ∀ o, findObject s y = some o → o.verbdefs = []) :
    ¬ Below (descent.get s) y e.oidKey := by
  intro hb
  by_cases hkey : e.oidKey = y
  · obtain ⟨os, hos, hhead, hnil, -⟩ := h
    rw [hkey] at hos
    cases hos with
    | top _ => exact hne (hkey.symm.trans (hnil rfl))
    | step ho _ => exact hhead _ rfl (hverbs _ ho)
  · obtain ⟨c, hc, -⟩ := hf.below_child hb hne hkey
    rw [hL] at hc
    exact nomatch hc

/-- The face of an object is in its verbs and its link up. -/
theorem verbFace_of_up (h : (findObject s' x).map (fun o => (o.id, o.verbdefs))
      = (findObject s x).map fun o => (o.id, o.verbdefs))
    (hup : upOf (descent.get s') x = upOf (descent.get s) x) :
    (findObject s' x).map verbFace = (findObject s x).map verbFace := by
  cases ho : findObject s x with
  | none =>
      rw [ho, Option.map_none, Option.map_eq_none_iff] at h
      rw [h]
  | some o =>
      rw [ho, Option.map_some] at h
      obtain ⟨o', ho', heq⟩ := Option.map_eq_some_iff.mp h
      rw [up_descent ho, up_descent ho'] at hup
      rw [Prod.mk.injEq] at heq
      rw [ho', Option.map_some, Option.map_some, verbFace, verbFace, heq.1, heq.2,
        Option.some.inj hup]

/-- A lookup in a right table finds what a walk finds, and leaves a right table. -/
theorem findCallableVerb_spec (hw : WellFormed s) {vc : VcTable} (hvc : VcOk s vc)
    (hos : Path s oid os) (hword : byLetters os word = true) :
    ∃ vc', findCallableVerb s oid word vc = some (walkUp os word, vc') ∧ VcOk s vc' := by
  obtain ⟨L, hf⟩ := hw.descent
  have htable : ∀ n, ∀ e ∈ (vc.getD fun _ => []) n, EntryOk s e := by
    cases vc with
    | none => exact fun _ _ he => nomatch he
    | some table => exact fun n e he => hvc table rfl n e he
  have hrest := hos.dropWhile hw fun o => o.verbdefs.isEmpty
  have hwalk : walkUp os word = walkUp (os.dropWhile fun o => o.verbdefs.isEmpty) ⟨none, word.text⟩ := by
    rw [walkUp_byLetters hword, walkUp_dropWhile]
    rfl
  have hhead : ∀ o ∈ (os.dropWhile fun o => o.verbdefs.isEmpty).head?, o.verbdefs ≠ [] := by
    intro o ho hempty
    have := List.head?_dropWhile_not (fun o => o.verbdefs.isEmpty) os
    rw [show (os.dropWhile fun o => o.verbdefs.isEmpty).head? = some o from ho] at this
    have hverbs : o.verbdefs.isEmpty = false := this
    rw [hempty] at hverbs
    exact absurd hverbs (by decide)
  have hnil : (os.dropWhile fun o => o.verbdefs.isEmpty) = [] →
      firstParentWithVerbs (os.dropWhile fun o => o.verbdefs.isEmpty) = nothing :=
    fun h => by rw [h]; rfl
  have hdrop := walkUp_dropWhile os word
  rw [hwalk] at hdrop ⊢
  simp only [findCallableVerb, (ancestors_iff hf).mpr hos, Option.bind_eq_bind, Option.bind_some]
  generalize firstParentWithVerbs (os.dropWhile fun o => o.verbdefs.isEmpty) = key at *
  generalize (os.dropWhile fun o => o.verbdefs.isEmpty) = up at *
  split
  next e he =>
    -- the entry has the same way up
    obtain ⟨hmem, hhit⟩ := And.intro (List.mem_of_find?_eq_some he) (List.find?_some he)
    simp only [Bool.and_eq_true, beq_iff_eq] at hhit
    obtain ⟨os', hos', -, -, hh⟩ := htable _ e hmem
    rw [← hhit.1.2] at hos'
    rw [hos'.det hrest, ← walkUp_congr hhit.2] at hh
    refine ⟨_, by rw [hh], fun t ht n e' he' => ?_⟩
    cases ht
    exact htable n e' he'
  next =>
    refine ⟨_, by rw [hdrop], fun t ht n e' he' => ?_⟩
    cases ht
    by_cases hn : n = (strHash word.text ^^^ ~~~ UInt32.ofInt key).toNat % vcSize
    · subst hn
      rw [Function.update_self] at he'
      rcases List.mem_cons.mp he' with rfl | he'
      · exact ⟨up, hrest, hhead, hnil, rfl⟩
      · exact htable _ e' he'
    · rw [Function.update_of_ne hn] at he'
      exact htable n e' he'

/-! ## Steps -/

/-- The verb that the word names first on the way up it names by its letters. -/
def namesByLetters (s : State) (oid : Objid) (word : Word) : Bool :=
  (ancestors s oid).all fun os => byLetters os word

/-- A lookup is by the letters. -/
def VerbOp.meets (w : VerbDb) : VerbOp → Bool
  | .findCallableVerb oid word => namesByLetters w.db oid word
  | _ => true

/-- What holds of the database and the table. -/
structure VerbDb.Good (w : VerbDb) : Prop where
  db : WellFormed w.db
  vc : VcOk w.db w.vc

/-- The owner of a verb is not in its face. -/
theorem setVerbOwner_keeps (h : VerbHandle) (owner : Objid) (s : State) :
    Keeps verbFace s (modifyVerb h (fun v => { v with owner := owner }) s) := by
  refine Keeps.modify (fun o => ?_) h.definer s
  have hmap : ∀ (l : List Verbdef) (n : Nat),
      (l.modify n fun v => { v with owner := owner }).map Verbdef.face = l.map Verbdef.face := by
    intro l n
    apply List.ext_getElem?
    intro i
    rw [List.getElem?_map, List.getElem?_map, List.getElem?_modify]
    cases l[i]? with
    | none => rfl
    | some v =>
        show some (Verbdef.face (if n = i then _ else v)) = some v.face
        split <;> rfl
  rw [verbFace, verbFace, hmap]

/-- An object that was not there is on nobody's way up. -/
theorem createObject_vcOk {vc : VcTable} (hw : WellFormed s) (hvc : VcOk s vc) :
    VcOk (createObject s).2 vc := by
  obtain ⟨L, hf⟩ := hw.descent
  intro table htable n e he
  have hok := hvc table htable n e he
  refine hok.faces fun y hy => ?_
  rw [findObject_createObject]
  split
  next hy' =>
    subst hy'
    have hnone := findObject_numObjects s
    refine absurd hy (hok.apart hf (fun h => nomatch h) (hf.empty ?_) fun o ho => ?_)
    · show (findObject s s.numObjects).map Object.descent = none
      rw [hnone]
      rfl
    · rw [hnone] at ho
      exact nomatch ho
  · rfl

/-- An object that changes its parent without clearing the table is on nobody's way up. -/
theorem changeParent_vcOk {vc : VcTable} {L : Objid → List Objid}
    (hf : Forest nothing (descent.get s) L) (hvc : VcOk s vc) (ho : findObject s oid = some o)
    (hchild : o.child = nothing) (hverbs : o.verbdefs = []) {p : Objid} {b : Bool}
    (hrun : changeParent s oid p = some (b, s')) (hs' : Reparented s s' L oid p) : VcOk s' vc := by
  have hkeeps : Keeps (fun o => (o.id, o.verbdefs)) s s' :=
    (changeParent_keeps (fun _ _ => rfl) (fun _ _ => rfl) hrun).toKeeps
  intro table htable n e he
  have hok := hvc table htable n e he
  refine hok.faces fun y hy => verbFace_of_up (hkeeps.find y) (hs'.up_ne ?_)
  rintro rfl
  refine hok.apart hf (hf.ne_nil (descent_get ho)) (hf.list_nil (descent_get ho) hchild) ?_ hy
  intro o' ho'
  cases ho.symm.trans ho'
  exact hverbs

/-- `db_change_parent`, with the table. -/
theorem changeParentVc_good (hw : w.Good) {p : Objid}
    (hp : validOrNothing w.db p = true) (hnot : (parents w.db p).any (fun os => decide (oid ∉ os)) = true)
    (hrun : changeParentVc oid p w = some w') : w'.Good := by
  obtain ⟨L, hf⟩ := hw.db.descent
  simp only [changeParentVc, Option.bind_eq_bind, Option.bind_eq_some_iff] at hrun
  obtain ⟨b, hb, hrun⟩ := hrun
  cases b with
  | false =>
      cases hrun
      exact hw
  | true =>
      obtain ⟨o, ho, ⟨b, s'⟩, hcp, hrun⟩ := by
        simpa only [if_pos, Option.bind_eq_some_iff] using hrun
      cases hrun
      have hp' : p = nothing ∨ (∃ op, findObject w.db p = some op) ∧
          ¬ Below (descent.get w.db) oid p := by
        rw [validOrNothing, Bool.or_eq_true, beq_iff_eq] at hp
        refine hp.imp id fun hv => ?_
        obtain ⟨op, hop⟩ := Option.isSome_iff_exists.mp hv
        refine ⟨⟨op, hop⟩, ?_⟩
        obtain ⟨ps, hps, hseg⟩ := parents_eq hf (.inr ⟨op, hop⟩)
        rw [hps] at hnot
        rw [← mem_parents_iff hf hseg (hf.ne_nil (descent_get ho))]
        simpa using hnot
      obtain ⟨s2, hcp', hw', hre⟩ := changeParent_spec hw.db hf ho hp' hb
      cases hcp.symm.trans hcp'
      refine ⟨hw', ?_⟩
      show VcOk s' (if o.child = nothing ∧ o.verbdefs = [] then w.vc else _)
      split
      next hnone => exact changeParent_vcOk hf hw.vc ho hnone.1 hnone.2 hcp hre
      · exact VcOk.cleared _ _

theorem changeLocation_good (hw : w.Good) {p : Objid} (hp : validOrNothing w.db p = true)
    (hnot : (locations w.db p).any (fun os => decide (oid ∉ os)) = true)
    (hrun : changeLocation w.db oid p = some s') : WellFormed s' := by
  obtain ⟨M, hf⟩ := hw.db.place
  obtain ⟨o, ho, -⟩ := by
    simpa only [changeLocation, Option.bind_eq_bind, Option.bind_eq_some_iff] using hrun
  have hp' : p = nothing ∨ (∃ op, findObject w.db p = some op) ∧
      ¬ Below (place.get w.db) oid p := by
    rw [validOrNothing, Bool.or_eq_true, beq_iff_eq] at hp
    refine hp.imp id fun hv => ?_
    obtain ⟨op, hop⟩ := Option.isSome_iff_exists.mp hv
    refine ⟨⟨op, hop⟩, ?_⟩
    obtain ⟨ps, hps, hseg⟩ := locations_eq hf (.inr ⟨op, hop⟩)
    rw [hps] at hnot
    rw [← hf.mem_path_iff hseg (hf.ne_nil (place_get ho))]
    simpa using hnot
  obtain ⟨s2, hrun', hw', -⟩ := changeLocation_spec hw.db hf ho hp'
  cases hrun.symm.trans hrun'
  exact hw'

/-- A step that meets the condition leads from a good state to a good state. -/
theorem verbStep_good (hw : w.Good) {op : VerbOp} (hmeets : op.meets w = true)
    (h : verbStep op w = some w') : w'.Good := by
  have hfixed : ∀ {s1 s2}, KeepsUsers fixedPart s1 s2 → Keeps verbFace s1 s2 := fun hk =>
    hk.toKeeps.comp fun f => (f.1.1, f.1.2.1.map Verbdef.face, f.1.2.2.1.up)
  have hmodify : ∀ {hd : VerbHandle} {f : Object → Object},
      (if hasVerb w.db hd then
        some (⟨modify hd.definer f w.db, affectedCallableVerbLookup w.vc⟩ : VerbDb) else none) = some w' →
      (∀ o, shape (f o) = shape o ∧ (f o).propval = o.propval) → w'.Good := by
    intro hd f h hf
    obtain ⟨-, rfl⟩ := (Option.ite_none_right_eq_some.mp h).imp id Option.some.inj
    exact ⟨hw.db.modify_data hd.definer hf, VcOk.cleared _ _⟩
  cases op with
  | findCallableVerb oid word =>
      obtain ⟨⟨res, vc⟩, hfind, h⟩ := Option.bind_eq_some_iff.mp h
      cases h
      obtain ⟨L, hf⟩ := hw.db.descent
      obtain ⟨os, hos, -⟩ := exists_path hf oid
      obtain ⟨vc', hfind', hvc'⟩ := findCallableVerb_spec hw.db hw.vc hos
        ((Option.all_eq_true _ _).mp hmeets os ((ancestors_iff hf).mpr hos))
      cases hfind.symm.trans hfind'
      exact ⟨hw.db, hvc'⟩
  | addVerb oid v =>
      simp only [verbStep, Option.ite_none_right_eq_some] at h
      obtain ⟨-, rfl⟩ := h.imp id Option.some.inj
      exact ⟨hw.db.modify_data oid fun _ => ⟨rfl, rfl⟩, VcOk.cleared _ _⟩
  | deleteVerb hd => exact hmodify h fun _ => ⟨rfl, rfl⟩
  | setVerbNames hd name addr => exact hmodify h fun _ => ⟨rfl, rfl⟩
  | setVerbFlags hd flags => exact hmodify h fun _ => ⟨rfl, rfl⟩
  | setVerbArgSpecs hd dobj prep iobj => exact hmodify h fun _ => ⟨rfl, rfl⟩
  | setVerbOwner hd owner =>
      simp only [verbStep, Option.ite_none_right_eq_some] at h
      obtain ⟨-, rfl⟩ := h.imp id Option.some.inj
      exact ⟨hw.db.modify_data hd.definer fun _ => ⟨rfl, rfl⟩,
        hw.vc.keeps (setVerbOwner_keeps hd owner w.db)⟩
  | createObject owner =>
      obtain rfl : w' = { w with
          db := modify (createObject w.db).1
            (fun o => { o with owner := if owner = nothing then (createObject w.db).1 else owner })
            (createObject w.db).2 } := (Option.some.inj h).symm
      constructor <;> dsimp only
      · exact (createObject_wellFormed hw.db).modify_data _ fun _ => ⟨rfl, rfl⟩
      · exact (createObject_vcOk hw.db hw.vc).keeps (Keeps.modify (by intro o; rfl) _ _)
  | changeParent oid parent =>
      simp only [verbStep, Bool.and_eq_true, Option.ite_none_right_eq_some] at h
      exact changeParentVc_good hw h.1.1 h.1.2 h.2
  | changeLocation oid location =>
      simp only [verbStep, Bool.and_eq_true, Option.ite_none_right_eq_some] at h
      obtain ⟨⟨hvalid, hnot⟩, hrun⟩ := h
      obtain ⟨s', hloc, hrun⟩ := Option.bind_eq_some_iff.mp hrun
      cases hrun
      exact ⟨changeLocation_good hw hvalid hnot hloc,
        hw.vc.keeps (changeLocation_keeps (fun _ _ => rfl) hloc).toKeeps⟩
  | destroyObject oid =>
      obtain ⟨s', hrun, h⟩ := Option.bind_eq_some_iff.mp h
      cases h
      refine ⟨?_, VcOk.cleared _ _⟩
      obtain ⟨o, ho, hlinks⟩ : ∃ o, findObject w.db oid = some o ∧ ¬ (o.location ≠ nothing ∨
          o.contents ≠ nothing ∨ o.parent ≠ nothing ∨ o.child ≠ nothing) := by
        obtain ⟨o, ho, hrest⟩ := Option.bind_eq_some_iff.mp hrun
        refine ⟨o, ho, fun hlinks => ?_⟩
        rw [if_pos hlinks] at hrest
        exact nomatch hrest
      simp only [not_or, not_not] at hlinks
      obtain ⟨s'', hrun', hw'⟩ := destroyObject_wellFormed hw.db ho ⟨hlinks.1, hlinks.2.1⟩
        ⟨hlinks.2.2.1, hlinks.2.2.2⟩
      cases hrun.symm.trans hrun'
      exact hw'
  | renumberObject old =>
      simp only [verbStep, Option.ite_none_right_eq_some] at h
      obtain ⟨hvalid, h⟩ := h
      obtain ⟨⟨new, s'⟩, hrun, h⟩ := Option.bind_eq_some_iff.mp h
      cases h
      refine ⟨?_, VcOk.cleared _ _⟩
      obtain ⟨o, ho⟩ := Option.isSome_iff_exists.mp hvalid
      obtain ⟨n, s'', hrun', hw'⟩ := renumberObject_wellFormed hw.db ho
      cases hrun.symm.trans hrun'
      exact hw'
  | resetLastUsedObjid =>
      obtain ⟨s', hrun, h⟩ := Option.bind_eq_some_iff.mp h
      cases h
      obtain ⟨hw', hfind⟩ := resetLastUsedObjid_spec hw.db hrun
      exact ⟨hw', fun table htable n e he =>
        (hw.vc table htable n e he).faces fun y _ => by rw [hfind]⟩
  | decrQuota player =>
      obtain ⟨⟨b, s'⟩, hrun, h⟩ := Option.bind_eq_some_iff.mp h
      cases h
      obtain ⟨b', s'', hrun', hw', -⟩ := decrQuota_spec hw.db player
      cases hrun.symm.trans hrun'
      exact ⟨hw', hw.vc.keeps (hfixed (decrQuota_keeps hrun))⟩
  | incrQuota player =>
      obtain ⟨s', hrun, h⟩ := Option.bind_eq_some_iff.mp h
      cases h
      obtain ⟨s'', hrun', hw', -⟩ := incrQuota_spec hw.db player
      cases hrun.symm.trans hrun'
      exact ⟨hw', hw.vc.keeps (hfixed (incrQuota_keeps hrun))⟩
  | property op hop =>
      obtain ⟨⟨e, s'⟩, hrun, h⟩ := Option.bind_eq_some_iff.mp h
      cases h
      obtain ⟨e', s'', hrun', hw'⟩ := request_ends hw.db op
      cases hrun.symm.trans hrun'
      exact ⟨hw', hw.vc.keeps (hfixed (request_keeps hop hrun))⟩

/-- The state of a database that has just been read. -/
def VerbDb.start (s : State) : VerbDb := ⟨s, none⟩

/-- So does a run. -/
theorem verbRun_good {ops : List VerbOp} (hw : w.Good)
    (hrun : Run (guarded (fun w op => op.meets w = true) (ofPart verbStep)) w ops w') : w'.Good := by
  have hstep : ∀ (v : VerbDb) op v', v.Good →
      guarded (fun w op => op.meets w = true) (ofPart verbStep) v op v' → v'.Good := by
    intro v op v' hv hs
    exact verbStep_good hv hs.1 hs.2
  exact hrun.invariant hstep hw

/-- After a run of lookups by letters and of any other steps, a lookup by letters finds what a
    walk finds. -/
theorem findCallableVerb_fresh (hw : WellFormed s) {ops : List VerbOp}
    (hrun : Run (guarded (fun w op => op.meets w = true) (ofPart verbStep)) (VerbDb.start s) ops w)
    (oid : Objid) (word : Word) (hword : namesByLetters w.db oid word = true) :
    ∃ h vc, findCallableVerb w.db oid word w.vc = some (h, vc) ∧ freshWalk w.db oid word = some h := by
  have hstart : VcOk s none := by
    intro table htable
    exact nomatch htable
  have hgood : w.Good := verbRun_good ⟨hw, hstart⟩ hrun
  obtain ⟨L, hf⟩ := hgood.db.descent
  obtain ⟨os, hos, -⟩ := exists_path hf oid
  have hanc := (ancestors_iff hf).mpr hos
  obtain ⟨vc, hfind, -⟩ := findCallableVerb_spec hgood.db hgood.vc hos
    ((Option.all_eq_true _ _).mp hword os hanc)
  refine ⟨_, vc, hfind, ?_⟩
  rw [freshWalk, hanc]
  rfl

/-- An object gets a verb with a star in its names, and someone calls it by a string with
    the star. -/
def starOps : List VerbOp :=
  [.createObject nothing, .addVerb 0 ⟨Str.ofString "foo*bar", 7, 0, vfExec, -1⟩,
    .findCallableVerb 0 ⟨none, Str.ofString "foo*bar"⟩]

def starDb : VerbDb := (starOps.foldlM (fun w op => verbStep op w) (.start emptyDb)).getD (.start emptyDb)

theorem starDb_run : Run (ofPart verbStep) (.start emptyDb) starOps starDb := by
  have hsome : (starOps.foldlM (fun w op => verbStep op w) (.start emptyDb)).isSome = true := by
    decide +kernel
  obtain ⟨w, hw⟩ := Option.isSome_iff_exists.mp hsome
  rw [run_ofPart_iff, starDb, hw]
  rfl

/-- The first call finds no verb by its letters, and so does the next one. -/
theorem findCallableVerb_fresh_star :
    ∃ w h vc, Run (guarded (fun w op => op.meets w = true) (ofPart verbStep)) (.start emptyDb) starOps w ∧
      findCallableVerb w.db 0 ⟨none, Str.ofString "FOO*BAR"⟩ w.vc = some (h, vc) ∧
      freshWalk w.db 0 ⟨none, Str.ofString "FOO*BAR"⟩ = some h := by
  have hok : (starOps.foldlM (fun w op => if op.meets w = true then verbStep op w else none)
      (.start emptyDb)).any (fun w => namesByLetters w.db 0 ⟨none, Str.ofString "FOO*BAR"⟩) = true := by
    decide +kernel
  obtain ⟨w, hw, hword⟩ := (Option.any_eq_true _ _).mp hok
  have hrun := run_guarded_of_check (run_ofPart_iff.mpr hw)
  obtain ⟨h, vc, hfind, hwalk⟩ := findCallableVerb_fresh emptyDb_wellFormed hrun 0 _ hword
  exact ⟨w, h, vc, hrun, hfind, hwalk⟩

/-- A call by the string of the names themselves finds the verb on a walk, and not in the
    table. -/
theorem names_string_in_table :
    ¬ ∀ ops w, Run (ofPart verbStep) (.start emptyDb) ops w → ∀ oid word,
      (findCallableVerb w.db oid word w.vc).map Prod.fst = freshWalk w.db oid word := by
  intro h
  have hfind : (findCallableVerb starDb.db 0 ⟨some 7, Str.ofString "foo*bar"⟩ starDb.vc).map Prod.fst
      = some none := by decide +kernel
  have hwalk : freshWalk starDb.db 0 ⟨some 7, Str.ofString "foo*bar"⟩ = some (some ⟨0, 0⟩) := by
    decide +kernel
  have := h starOps starDb starDb_run 0 ⟨some 7, Str.ofString "foo*bar"⟩
  rw [hfind, hwalk] at this
  exact nomatch this

end Waverous.Db
