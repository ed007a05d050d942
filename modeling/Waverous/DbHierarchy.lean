import Mathlib.Logic.Relation
import Waverous.DbRequests

/-! # The hierarchies, whatever verbs do in between

    A function that goes on after a verb has returned checks again what its next step
    needs, in the database that there is then.  So every event leads from a well-formed
    database to a well-formed database: names stay unique on every way up, and both
    hierarchies stay forests. -/

namespace Waverous.Db

open LinkedForest Runs

variable {s s' : State} {M : Objid → List Objid} {oid progr x : Objid} {o : Object} {w w' : World}
  {d : MoveData} {arg : Bool} {call : Calls}

/-- Where the package says to go on. -/
def Package.CanGoOn : Package → Prop
  | .call next => 2 ≤ next ∧ next ≤ 4
  | _ => True

/-- The part comes to an end in a well-formed database, and can go on. -/
def EndsPart (r : Option (Package × State)) : Prop :=
  ∃ p s', r = some (p, s') ∧ WellFormed s' ∧ p.CanGoOn

theorem EndsPart.raise (hw : WellFormed s) (e : Error) : EndsPart (some (.raise e, s)) :=
  ⟨_, s, rfl, hw, trivial⟩

theorem EndsPart.value (hw : WellFormed s) : EndsPart (some (.value, s)) :=
  ⟨_, s, rfl, hw, trivial⟩

theorem EndsPart.wait (hw : WellFormed s) {next : Nat} (h : 2 ≤ next ∧ next ≤ 4) :
    EndsPart (some (.call next, s)) :=
  ⟨_, s, rfl, hw, h⟩

/-! ## `move` -/

/-- The objects that an object is in. -/
theorem locations_eq (hf : Forest nothing (place.get s) M)
    (hx : x = nothing ∨ ∃ o, findObject s x = some o) :
    ∃ ps, locations s x = some ps ∧ Seg (upOf (place.get s)) x ps nothing := by
  rcases hx with rfl | ⟨o, ho⟩
  · have hend : Seg (upOf (place.get s)) nothing [] nothing := rfl
    exact ⟨[], follow_eq hf.upOf_nil hend (Nat.zero_le _), hend⟩
  · obtain ⟨ps, hps⟩ := hf.path (place_get ho)
    have hlen := hf.length_le place_oids hps
    rw [length_oids] at hlen
    exact ⟨ps, follow_eq hf.upOf_nil hps hlen, hps⟩

/-- The last step of `do_move` only calls a verb. -/
theorem moveExited_eq (s : State) (d : MoveData) (call : Calls) :
    ∃ p, moveExited s d call = (p, s) ∧ p.CanGoOn := by
  rw [moveExited]
  split
  · split
    · exact ⟨_, rfl, by constructor <;> decide⟩
    · exact ⟨_, rfl, trivial⟩
    · exact ⟨_, rfl, trivial⟩
  · exact ⟨_, rfl, trivial⟩

/-- The object is moved when it is not about to get into itself. -/
theorem moveDecided_spec (hw : WellFormed s) (progr : Objid) (d : MoveData) (accepts : Bool)
    (call : Calls) : EndsPart (moveDecided s progr d accepts call) := by
  rw [moveDecided]
  split
  · exact EndsPart.raise hw _
  · split
    · exact EndsPart.value hw
    next o ho =>
      split
      · exact EndsPart.value hw
      next hnot =>
        obtain ⟨M, hf⟩ := hw.place
        have hp : d.where = nothing ∨ ∃ op, findObject s d.where = some op := by
          by_cases hn : d.where = nothing
          · exact .inl hn
          · refine .inr (Option.isSome_iff_exists.mp ?_)
            by_contra hv
            exact hnot (.inl ⟨hn, by simpa [valid] using hv⟩)
        obtain ⟨ls, hls, hseg⟩ := locations_eq hf hp
        simp only [hls, Option.bind_eq_bind, Option.bind_some]
        split
        · exact EndsPart.raise hw _
        next hmem =>
          rw [hf.mem_path_iff hseg (hf.ne_nil (place_get ho))] at hmem
          obtain ⟨s', hrun, hw', -⟩ := changeLocation_spec hw hf ho (hp.imp id fun h => ⟨h, hmem⟩)
          simp only [hrun, Option.bind_some]
          split
          · exact EndsPart.wait hw' (by decide)
          · exact EndsPart.raise hw' _
          · obtain ⟨p, hexit, hgo⟩ := moveExited_eq s' d call
            exact ⟨p, s', by rw [hexit], hw', hgo⟩

/-- `do_move` comes to an end, wherever it goes on. -/
theorem doMove_spec (hw : WellFormed s) (progr : Objid) (d : MoveData) (next : Nat)
    (hnext : 1 ≤ next ∧ next ≤ 4) (arg : Bool) (call : Calls) :
    EndsPart (doMove s progr d next arg call) := by
  obtain ⟨h1, h4⟩ := hnext
  match next, h1, h4 with
  | 1, _, _ =>
      simp only [doMove]
      split
      · exact EndsPart.raise hw _
      · split
        · exact EndsPart.raise hw _
        · split
          · exact EndsPart.raise hw _
          · split
            · exact moveDecided_spec hw progr d true call
            · split
              · exact EndsPart.wait hw (by decide)
              · exact EndsPart.raise hw _
              · exact moveDecided_spec hw progr d false call
  | 2, _, _ => exact moveDecided_spec hw progr d arg call
  | 3, _, _ =>
      obtain ⟨p, hexit, hgo⟩ := moveExited_eq s d call
      exact ⟨p, s, by rw [doMove, hexit], hw, hgo⟩
  | 4, _, _ => exact EndsPart.value hw

/-! ## `recycle` -/

theorem recycleMoving_spec (hw : WellFormed s) (oid : Objid) (call : Calls) :
    EndsPart (recycleMoving s oid call) := by
  rw [recycleMoving]
  split
  · exact EndsPart.value hw
  next hv =>
    obtain ⟨o, ho⟩ := Option.isSome_iff_exists.mp (show valid s oid = true by simpa using hv)
    obtain ⟨b, s1, hrun1, hw1, hend⟩ :=
      leavePlaces_spec hw (fun x => callVerb s call x exitfuncName == .called) ho
    simp only [hrun1, Option.bind_eq_bind, Option.bind_some]
    cases b with
    | true => exact EndsPart.wait hw1 (by decide)
    | false =>
        obtain ⟨o1, ho1, hloc, hcont⟩ := hend rfl
        obtain ⟨s', hrun, hw'⟩ := demolish_spec hw1 ho1 hloc hcont
        exact ⟨.value, s', by rw [hrun]; rfl, hw', trivial⟩

/-- `bf_recycle` comes to an end, when it is called. -/
theorem doRecycle_spec (hw : WellFormed s) (progr oid : Objid) (call : Calls) :
    EndsPart (doRecycle s progr oid 1 call) := by
  simp only [doRecycle]
  split
  · exact EndsPart.raise hw _
  · split
    · exact EndsPart.raise hw _
    · split
      · exact EndsPart.wait hw (by decide)
      · exact recycleMoving_spec hw oid call

/-! ## `reset_max_object` -/

theorem rdropWhile_join {α : Type} (l : List (Option α)) (n : Nat) :
    (l.rdropWhile Option.isNone)[n]?.join = l[n]?.join := by
  induction l using List.reverseRecOn with
  | nil => rfl
  | append_singleton l a ih =>
      cases a with
      | none =>
          rw [List.rdropWhile_concat_pos _ _ _ rfl, ih]
          by_cases hn : n < l.length
          · rw [List.getElem?_append_left hn]
          · rw [List.getElem?_eq_none (Nat.le_of_not_lt hn)]
            by_cases he : n = l.length
            · rw [he, List.getElem?_concat_length]
              rfl
            · rw [List.getElem?_eq_none]
              rw [List.length_append, List.length_singleton]
              omega
      | some a => rw [List.rdropWhile_concat_neg _ _ _ (by simp)]

/-- Resetting the largest number changes no object. -/
theorem resetLastUsedObjid_spec (hw : WellFormed s) (h : resetLastUsedObjid s = some s') :
    WellFormed s' ∧ ∀ x, findObject s' x = findObject s x := by
  rw [resetLastUsedObjid] at h
  split at h
  · exact nomatch h
  · cases h
    have hfind : ∀ x, findObject { s with objects := s.objects.rdropWhile Option.isNone } x
        = findObject s x := by
      intro x
      cases x with
      | negSucc n => rfl
      | ofNat n => exact rdropWhile_join s.objects n
    refine ⟨hw.alike ⟨fun x => by rw [hfind], rfl⟩ fun ho => ?_, hfind⟩
    rw [hfind] at ho
    exact hw.slots.defined ho

theorem bfResetMaxObject_ends (hw : WellFormed s) (progr : Objid) : Ends (bfResetMaxObject s progr) := by
  rw [bfResetMaxObject]
  split
  · exact Ends.refuse hw _
  next hwiz =>
    -- the wizard is an object
    obtain ⟨o, ho⟩ : ∃ o, findObject s progr = some o := by
      cases ho : findObject s progr with
      | some o => exact ⟨o, rfl⟩
      | none => simp [isWizard, ho] at hwiz
    have hsome : ¬ (s.objects.all Option.isNone = true) := by
      intro hall
      cases progr with
      | negSucc n => exact nomatch ho
      | ofNat n =>
          have hmem := List.mem_of_getElem? (Option.join_eq_some_iff.mp ho)
          exact nomatch List.all_eq_true.mp hall _ hmem
    have hrun : resetLastUsedObjid s
        = some { s with objects := s.objects.rdropWhile Option.isNone } := by
      rw [resetLastUsedObjid, if_neg hsome]
    exact ⟨.eNone, _, by rw [hrun]; rfl, (resetLastUsedObjid_spec hw hrun).1⟩

/-! ## Events -/

/-- Places where a function can go on. -/
def Waiting.CanGoOn : Waiting → Prop
  | .move _ _ next => 2 ≤ next ∧ next ≤ 4
  | .recycle _ _ => True

/-- What holds in every world. -/
structure World.Good (w : World) : Prop where
  db : WellFormed w.db
  frames : ∀ fr ∈ w.frames, fr.fn.CanGoOn

/-- What waits after a part can go on. -/
theorem wait_canGoOn {p : Package} {fr : Nat → Frame} {frames : List Frame} (hp : p.CanGoOn)
    (hfr : ∀ next, 2 ≤ next ∧ next ≤ 4 → (fr next).fn.CanGoOn)
    (hframes : ∀ fr ∈ frames, fr.fn.CanGoOn) : ∀ fr' ∈ wait p fr frames, fr'.fn.CanGoOn := by
  cases p with
  | call next =>
      intro fr' hmem
      rcases List.mem_cons.mp hmem with rfl | hmem
      · exact hfr next hp
      · exact hframes fr' hmem
  | raise e => exact hframes
  | value => exact hframes

theorem goOn_spec (hw : WellFormed s) {fn : Waiting} (hfn : fn.CanGoOn) (arg : Bool) (call : Calls) :
    EndsPart (goOn fn arg call s) := by
  cases fn with
  | move progr d next => exact doMove_spec hw progr d next ⟨by have := hfn.1; omega, hfn.2⟩ arg call
  | recycle progr oid => exact recycleMoving_spec hw oid call

/-- Whatever happens, the code comes to the end of it, and all stays well. -/
theorem happen_good (hw : w.Good) (e : Event) : ∃ w', happen e w = some w' ∧ w'.Good := by
  obtain ⟨hdb, hframes⟩ := hw
  cases e with
  | request op h =>
      obtain ⟨err, s', hrun, hw'⟩ := request_ends hdb op
      simp only [happen, hrun, Option.bind_eq_bind, Option.bind_some]
      exact ⟨_, rfl, hw', hframes⟩
  | resetMaxObject progr =>
      obtain ⟨err, s', hrun, hw'⟩ := bfResetMaxObject_ends hdb progr
      simp only [happen, hrun, Option.bind_eq_bind, Option.bind_some]
      exact ⟨_, rfl, hw', hframes⟩
  | move progr what dest call =>
      obtain ⟨p, s', hrun, hw', hgo⟩ := doMove_spec hdb progr ⟨what, dest⟩ 1
        ⟨by decide, by decide⟩ false call
      simp only [happen, hrun, Option.bind_eq_bind, Option.bind_some]
      exact ⟨_, rfl, hw', wait_canGoOn hgo (fun next h => h) hframes⟩
  | recycle progr oid call =>
      obtain ⟨p, s', hrun, hw', hgo⟩ := doRecycle_spec hdb progr oid call
      simp only [happen, hrun, Option.bind_eq_bind, Option.bind_some]
      exact ⟨_, rfl, hw', wait_canGoOn hgo (fun next _ => trivial) hframes⟩
  | resume i arg call =>
      simp only [happen]
      split
      · exact ⟨w, rfl, hdb, hframes⟩
      next fr hfr =>
        have hrest : ∀ fr ∈ w.frames.eraseIdx i, fr.fn.CanGoOn := fun fr h =>
          hframes fr (List.mem_of_mem_eraseIdx h)
        obtain ⟨p, s', hrun, hw', hgo⟩ :=
          goOn_spec hdb (hframes fr (List.mem_of_getElem? hfr)) arg call
        simp only [hrun, Option.bind_eq_bind, Option.bind_some]
        refine ⟨_, rfl, hw', wait_canGoOn hgo (fun next h => ?_) hrest⟩
        show (fr.fn.at next).CanGoOn
        cases fr.fn with
        | move progr d _ => exact h
        | recycle progr oid => trivial
  | abandon i =>
      exact ⟨_, rfl, hdb, fun fr h => hframes fr (List.mem_of_mem_eraseIdx h)⟩

/-- So it stays in every run. -/
theorem run_good (hw : w.Good) (es : List Event) : ∃ w', Run (ofPart happen) w es w' ∧ w'.Good := by
  induction es generalizing w with
  | nil => exact ⟨w, .nil w, hw⟩
  | cons e es ih =>
      obtain ⟨w1, hstep, hw1⟩ := happen_good hw e
      obtain ⟨w', hrun, hw'⟩ := ih hw1
      exact ⟨w', .cons hstep hrun, hw'⟩

/-- The world when the database has been loaded and nothing waits. -/
def World.start (db : State) : World := ⟨db, [], Int.toNat, db.numObjects⟩

theorem start_good (hw : WellFormed s) : (World.start s).Good := ⟨hw, fun _ h => nomatch h⟩

/-! ## What is true of every run -/

/-- One of the two hierarchies, by its links. -/
structure Hierarchy (g : Graph Objid) : Prop where
  /-- the list of an object ends with NOTHING; it has each object that points to this one
      once, and no others -/
  list : ∀ {x l}, g x = some l → ∃ cs, Seg (nextOf g) l.first cs nothing ∧ cs.Nodup ∧
    ∀ c, c ∈ cs ↔ upOf g c = some x
  /-- links up lead to objects -/
  up : ∀ {x l}, g x = some l → l.up = nothing ∨ ∃ lp, g l.up = some lp
  /-- and never in a circle -/
  acyclic : ∀ x, ¬ Relation.TransGen (fun a b => upOf g a = some b) x x

theorem hierarchy_of_forest {g : Graph Objid} (hg : Forest nothing g M) : Hierarchy g := by
  constructor
  · intro x l hx
    refine ⟨M x, hg.seg (by rw [firstOf, hx]; rfl), hg.list_nodup x, fun c => ?_⟩
    rw [hg.mem_iff]
    exact ⟨And.right, fun h => ⟨hg.ne_nil hx, h⟩⟩
  · intro x l hx
    by_cases hup : l.up = nothing
    · exact .inl hup
    · exact .inr (hg.up_valid hx hup)
  · intro x hround
    have hbelow : ∀ {a b}, Relation.ReflTransGen (fun a b => upOf g a = some b) a b → Below g b a := by
      intro a b h
      induction h using Relation.ReflTransGen.head_induction_on with
      | refl => exact Below.refl g b
      | head hstep _ ih => exact ih.step hstep
    obtain ⟨y, hxy, hyx⟩ := Relation.TransGen.head'_iff.mp hround
    obtain ⟨l, hl, hup⟩ := Option.map_eq_some_iff.mp hxy
    by_cases hy : y = nothing
    · -- there is no way on from NOTHING
      subst hy
      exact hg.ne_nil hl (hg.below_nil (hbelow hyx))
    · exact hg.not_below_child (hg.mem_iff.mpr ⟨hy, hxy⟩) (hbelow hyx)

/-- In every database that events lead to, whatever the verbs do that `move` and `recycle`
    call, parents and locations are consistent hierarchies. -/
theorem hierarchies_stay (hw : WellFormed s) (es : List Event) :
    ∃ w', Run (ofPart happen) (World.start s) es w' ∧ Hierarchy (descent.get w'.db) ∧
      Hierarchy (place.get w'.db) := by
  obtain ⟨w', hrun, hgood⟩ := run_good (start_good hw) es
  obtain ⟨L, hf⟩ := hgood.db.descent
  obtain ⟨M, hp⟩ := hgood.db.place
  exact ⟨w', hrun, hierarchy_of_forest hf, hierarchy_of_forest hp⟩

/-- All verbs can be called. -/
def sampleCalls : Calls := fun _ _ => .called

/-- An object is moved into its parent; this one is recycled, and while `recycle` runs, the
    first one is moved out again.  Then both built-in functions go on. -/
def sampleEvents : List Event :=
  [.request (.create nothing nothing nothing) rfl, .request (.create 0 0 0) rfl,
    .move 0 1 0 sampleCalls, .resume 0 true sampleCalls, .resume 0 true sampleCalls,
    .recycle 0 0 sampleCalls, .move 0 1 nothing sampleCalls, .resume 1 true sampleCalls,
    .resume 0 true sampleCalls]

theorem hierarchies_stay_sample : ∃ w', Run (ofPart happen) (World.start emptyDb) sampleEvents w' ∧
    Hierarchy (descent.get w'.db) ∧ Hierarchy (place.get w'.db) :=
  hierarchies_stay emptyDb_wellFormed sampleEvents

/-- And no name is defined twice on a way up.  So when an object is recycled, each of its
    children can be given to its parent, and the loop that does it comes to an end. -/
theorem names_stay_unique (hw : WellFormed s) (es : List Event) :
    ∃ w', Run (ofPart happen) (World.start s) es w' ∧ Names w'.db ∧
      ∀ called oid t, valid w'.db oid = true → leavePlaces w'.db called oid = some (false, t) →
        ∃ t', orphanChildren oid (t.numObjects + 1) t = some t' ∧ Orphaned oid t t' := by
  obtain ⟨w', hrun, hgood⟩ := run_good (start_good hw) es
  refine ⟨w', hrun, hgood.db.names, fun called oid t hv hleave => ?_⟩
  obtain ⟨o, ho⟩ := Option.isSome_iff_exists.mp hv
  obtain ⟨b, t1, hleave1, hw1, hend⟩ := leavePlaces_spec hgood.db called ho
  rw [hleave] at hleave1
  cases hleave1
  obtain ⟨o1, ho1, -, -⟩ := hend rfl
  obtain ⟨L, hf⟩ := hw1.descent
  obtain ⟨t', hrun', horph, -⟩ :=
    orphanChildren_spec hw1 hf ho1 (Nat.lt_succ_of_le (length_children_le hf oid))
  exact ⟨t', hrun', horph⟩

theorem names_stay_unique_sample : ∃ w', Run (ofPart happen) (World.start emptyDb) sampleEvents w' ∧
    Names w'.db ∧ ∀ called oid t, valid w'.db oid = true →
      leavePlaces w'.db called oid = some (false, t) →
      ∃ t', orphanChildren oid (t.numObjects + 1) t = some t' ∧ Orphaned oid t t' :=
  names_stay_unique emptyDb_wellFormed sampleEvents

end Waverous.Db
