import Waverous.DbWalks

/-! # Editing a whole subtree

    A recursion down the children visits every object below its root once, after
    its parent, and nothing else.  So what it makes of the database can be told
    object by object (`descend_spec`), and with it what `insert_prop_recursively`,
    `remove_prop_recursively` and `fix_props` make of the slots. -/

namespace Waverous.Db

open LinkedForest

variable {s : State} {L : Objid → List Objid} {r : Objid}

/-- From `t` to `t'` the slots of the objects in `P` have been edited, and nothing else. -/
structure Edited (s t t' : State) (P : Objid → Prop) (ed : Objid → Object → List Pval) : Prop where
  same : SameButSlots s t'
  inside : ∀ y oy, P y → findObject s y = some oy →
    findObject t' y = some { oy with propval := ed y oy }
  outside : ∀ y, ¬ P y → findObject t' y = findObject t y

/-- One after the other the subtrees of children of `root` are edited. -/
theorem fold_edited {f : State → Objid → Option State} {ed : Objid → Object → List Pval}
    {root : Objid} {ro : Object} (hf : Forest nothing (descent.get s) L) {cs : List Objid}
    (hnd : cs.Nodup) (hcs : ∀ c ∈ cs, c ∈ L root)
    (hstep : ∀ c ∈ cs, ∀ t, SameButSlots s t → findObject t root = some ro →
      (∀ y, Below (descent.get s) c y → findObject t y = findObject s y) →
      ∃ t', f t c = some t' ∧ Edited s t t' (Below (descent.get s) c) ed)
    {t : State} (hst : SameButSlots s t) (hself : findObject t root = some ro)
    (hsub : ∀ c ∈ cs, ∀ y, Below (descent.get s) c y → findObject t y = findObject s y) :
    ∃ t', cs.foldlM f t = some t' ∧
      Edited s t t' (fun y => ∃ c ∈ cs, Below (descent.get s) c y) ed := by
  induction cs generalizing t with
  | nil =>
      refine ⟨t, rfl, hst, ?_, fun _ _ => rfl⟩
      rintro y oy ⟨c, hc, -⟩
      exact nomatch hc
  | cons c cs ih =>
      obtain ⟨hcn, hnd⟩ := List.nodup_cons.mp hnd
      have hcL : c ∈ L root := hcs c List.mem_cons_self
      have hrest : ∀ d ∈ cs, d ∈ c :: cs := fun d hd => List.mem_cons_of_mem c hd
      obtain ⟨t2, hrun2, h2⟩ := hstep c List.mem_cons_self t hst hself (hsub c List.mem_cons_self)
      have hself2 : findObject t2 root = some ro :=
        (h2.outside root (hf.not_below_child hcL)).trans hself
      obtain ⟨t', hrun', h'⟩ := ih hnd (fun d hd => hcs d (hrest d hd))
        (fun d hd => hstep d (hrest d hd)) h2.same hself2 (by
          intro d hd y hy
          have hdc : d ≠ c := fun heq => hcn (heq ▸ hd)
          have hny := hf.children_disjoint (hcs d (hrest d hd)) hcL hdc hy
          rw [h2.outside y hny]
          exact hsub d (hrest d hd) y hy)
      refine ⟨t', ?_, h'.same, ?_, ?_⟩
      · rw [List.foldlM_cons, hrun2]
        exact hrun'
      · rintro y oy ⟨d, hd, hdy⟩ hoy
        by_cases hlater : ∃ d ∈ cs, Below (descent.get s) d y
        · exact h'.inside y oy hlater hoy
        · rw [h'.outside y hlater]
          rcases List.mem_cons.mp hd with rfl | hd
          · exact h2.inside y oy hdy hoy
          · exact absurd ⟨d, hd, hdy⟩ hlater
      · intro y hy
        rw [h'.outside y fun ⟨d, hd, hdy⟩ => hy ⟨d, hrest d hd, hdy⟩]
        exact h2.outside y fun hcy => hy ⟨c, List.mem_cons_self, hcy⟩

section Descend

variable {β : Type} (visit : β → Objid → State → Option State) (next : β → Object → Object → β)
  (hf : Forest nothing (descent.get s) L) (b : Objid → β) (ed : Objid → Object → List Pval)
  (hnext : ∀ {p c op oc} pvs pvs', Below (descent.get s) r p → c ∈ L p →
    findObject s p = some op → findObject s c = some oc →
      next (b p) { op with propval := pvs } { oc with propval := pvs' } = b c)
  (hvisit : ∀ {x ox t}, Below (descent.get s) r x → findObject s x = some ox →
    SameButSlots s t → findObject t x = some ox →
    (∀ {op}, findObject s ox.parent = some op →
      findObject t ox.parent = some (if x = r then op else { op with propval := ed ox.parent op })) →
    visit (b x) x t = some (modify x (fun o => { o with propval := ed x ox }) t))
include hf hnext hvisit

/-- The subtree of `root`, which is part of that of `r`. -/
theorem descend_below {fuel : Nat} {root : Objid} {t : State}
    (hr : ∃ o, findObject s r = some o) (hroot : Below (descent.get s) r root)
    (hst : SameButSlots s t)
    (hsub : ∀ y, Below (descent.get s) root y → findObject t y = findObject s y)
    (hparent : ∀ {o op}, findObject s root = some o → findObject s o.parent = some op →
      findObject t o.parent
        = some (if root = r then op else { op with propval := ed o.parent op }))
    (hfuel : ∀ y ps, Seg (upOf (descent.get s)) y ps root → ps.length < fuel) :
    ∃ t', descend visit next fuel (b root) root t = some t' ∧
      Edited s t t' (Below (descent.get s) root) ed := by
  induction fuel generalizing root t with
  | zero => exact absurd (hfuel root [] rfl) (Nat.not_lt_zero _)
  | succ fuel ih =>
      obtain ⟨ro, hro⟩ := hr
      obtain ⟨o, ho⟩ := object_below hro hroot
      have hto : findObject t root = some o := (hsub root (Below.refl _ _)).trans ho
      have hrun := hvisit hroot ho hst hto (hparent ho)
      generalize ht1 : modify root (fun o' => { o' with propval := ed root o }) t = t1 at hrun
      have hst1 : SameButSlots s t1 := ht1 ▸ hst.trans (sameButSlots_modify _ _ _)
      have hself : findObject t1 root = some { o with propval := ed root o } := by
        rw [← ht1, findObject_modify_self _ hto]
      have hothers : ∀ {y}, y ≠ root → findObject t1 y = findObject t y := fun hy => by
        rw [← ht1, findObject_modify_ne _ hy]
      have hf1 : Forest nothing (descent.get t1) L := by rwa [hst1.descent]
      have hkids : children t1 root = some (L root) := children_eq hf1 hself
      have hchild : ∀ {c}, c ∈ L root → Below (descent.get s) root c := fun hc =>
        (Below.refl _ _).step (hf.mem_iff.mp hc).2
      -- a child is visited when its parent has been
      have hstep : ∀ c ∈ L root, ∀ t1, SameButSlots s t1 →
          findObject t1 root = some { o with propval := ed root o } →
          (∀ y, Below (descent.get s) c y → findObject t1 y = findObject s y) →
          ∃ t', (do
              let me ← findObject t1 root
              let oc ← findObject t1 c
              descend visit next fuel (next (b root) me oc) c t1) = some t' ∧
            Edited s t1 t' (Below (descent.get s) c) ed := by
        intro c hc t1 hst1 hself hsub1
        obtain ⟨lc, hlc, -⟩ := hf.mem_valid hc
        obtain ⟨oc, hoc, -⟩ := find_of_descent hlc
        obtain ⟨hrc, hcr, hcp⟩ := child_below hf hroot hc hoc
        have htc : findObject t1 c = some oc := (hsub1 c (Below.refl _ _)).trans hoc
        have hupc : upOf (descent.get s) c = some root := by rw [up_descent hoc, hcp]
        obtain ⟨t2, hrun2, h2⟩ := ih hrc hst1 hsub1 (by
            intro oc' op hoc' hop
            rw [hoc] at hoc'
            cases hoc'
            rw [hcp, ho] at hop
            cases hop
            rw [if_neg hcr, hcp, hself]) (by
            intro y ps hps
            have hup : Seg (upOf (descent.get s)) y (ps ++ [c]) root :=
              seg_append.mpr ⟨c, hps, rfl, root, hupc, rfl⟩
            have := hfuel y _ hup
            rw [List.length_append, List.length_singleton] at this
            omega)
        refine ⟨t2, ?_, h2⟩
        rw [hself, htc, Option.bind_eq_bind, Option.bind_some, Option.bind_some,
          hnext (ed root o) oc.propval hroot hc ho hoc]
        exact hrun2
      obtain ⟨t', hrun', h'⟩ := fold_edited hf (hf.list_nodup root) (fun _ h => h) hstep hst1 hself
        (by
          intro c hc y hy
          have hyr : y ≠ root := by
            rintro rfl
            exact hf.not_below_child hc hy
          rw [hothers hyr]
          exact hsub y (hy.trans (hchild hc)))
      refine ⟨t', ?_, h'.same, ?_, ?_⟩
      · simp only [descend, hrun, hkids, Option.bind_eq_bind, Option.bind_some]
        exact hrun'
      · intro y oy hy hoy
        by_cases hrest : ∃ c ∈ L root, Below (descent.get s) c y
        · exact h'.inside y oy hrest hoy
        · have hyr : y = root := by
            by_contra hne
            exact hrest (hf.below_child hy (hf.ne_nil (descent_get ho)) hne)
          subst hyr
          rw [hoy] at ho
          cases ho
          rw [h'.outside y hrest, hself]
      · intro y hy
        have hyr : y ≠ root := by
          rintro rfl
          exact hy (Below.refl _ _)
        rw [h'.outside y, hothers hyr]
        rintro ⟨c, hc, hcy⟩
        exact hy (hcy.trans (hchild hc))

/-- A recursion from `r` edits the slots of all that is below `r`, and of nothing else. -/
theorem descend_spec (hr : ∃ o, findObject s r = some o) :
    ∃ t, descend visit next (s.numObjects + 1) (b r) r s = some t ∧ SameButSlots s t ∧
      (∀ y oy, Below (descent.get s) r y → findObject s y = some oy →
        findObject t y = some { oy with propval := ed y oy }) ∧
      ∀ y, ¬ Below (descent.get s) r y → findObject t y = findObject s y := by
  have hfuel : ∀ y ps, Seg (upOf (descent.get s)) y ps r → ps.length < s.numObjects + 1 := by
    intro y ps hps
    obtain ⟨ro, hro⟩ := hr
    obtain ⟨qs, hqs⟩ := hf.path (descent_get hro)
    have hlen := hf.length_le descent_oids (seg_append.mpr ⟨r, hps, hqs⟩)
    rw [length_oids, List.length_append] at hlen
    omega
  have hparent : ∀ {o op}, findObject s r = some o → findObject s o.parent = some op →
      findObject s o.parent
        = some (if r = r then op else { op with propval := ed o.parent op }) := by
    intro o op _ hop
    rw [if_pos rfl]
    exact hop
  obtain ⟨t, hrun, h⟩ := descend_below visit next hf b ed hnext hvisit hr (Below.refl _ _)
    (SameButSlots.refl s) (fun _ _ => rfl) hparent hfuel
  exact ⟨t, hrun, h.same, h.inside, h.outside⟩

end Descend

end Waverous.Db
