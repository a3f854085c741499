import Kompyle.CircuitOperation

namespace Kompyle

open WeightedCount

namespace DataBranch

variable {e : DataBranch CallTree} {s U : Finset Nat}

theorem unitsHold_eq_all (σ : Nat → Bool) :
    e.unitsHold σ = (e.unitLits.map fun l => (l.var, !l.sign)).all fun l => σ l.1 == l.2 := by
  rw [unitsHold, List.all_map]
  rfl

theorem dependsOn_unitsHold :
    DependsOn (fun σ => e.unitsHold σ) ((e.unitLits.map Lit.var).toFinset : Set Nat) := by
  intro σ τ hs
  dsimp only
  rw [unitsHold, unitsHold, Bool.eq_iff_iff, List.all_eq_true, List.all_eq_true]
  refine forall₂_congr fun l hl => ?_
  rw [Lit.holds, Lit.holds, hs l.var (List.mem_toFinset.mpr (List.mem_map_of_mem hl))]

/-- Satisfaction of a branch looks at its unit literals and the scope of `d`. -/
theorem dependsOn_sat (hu : ∀ l ∈ e.unitLits, l.var ∉ U)
    (hd : DependsOn e.d.sat ((s \ U : Finset Nat) : Set Nat)) :
    DependsOn (CallTree.manageBranch e).sat ((e.scope s \ U : Finset Nat) : Set Nat) := by
  intro σ τ hs
  have hunits : e.unitsHold σ = e.unitsHold τ := by
    refine dependsOn_unitsHold fun v hv => hs v ?_
    obtain ⟨l, hl, rfl⟩ := List.mem_map.mp (List.mem_toFinset.mp hv)
    simp only [scope, ownVars, Finset.coe_sdiff, Set.mem_sdiff, Finset.mem_coe]
    exact ⟨by simp [List.mem_map_of_mem hl], hu l hl⟩
  have hdd : e.d.sat σ = e.d.sat τ := by
    refine hd fun v hv => hs v ?_
    simp only [Finset.coe_sdiff, Set.mem_sdiff, Finset.mem_coe] at hv ⊢
    exact ⟨by simp [scope, hv.1], hv.2⟩
  rw [CallTree.sat_manageBranch, CallTree.sat_manageBranch, hunits, hdd]

end DataBranch

namespace CallTree

/-- Satisfaction only looks at the scope, less the variables no unit literal decides. -/
theorem dependsOn_sat {t : CallTree} {s U : Finset Nat} (hs : t.HasScope s)
    (hu : t.EachBranch fun e => ∀ l ∈ e.unitLits, l.var ∉ U) :
    DependsOn t.sat ((s \ U : Finset Nat) : Set Nat) := by
  induction hs with
  | bottom h =>
    intro σ τ _
    rw [sat_of_isBottom h, sat_of_isBottom h]
  | createTop => exact fun _ _ _ => rfl
  | manageTop => exact fun _ _ _ => rfl
  | @manageBranch e s hp hd ih =>
    cases hb : e.d.isBottom with
    | true =>
      intro σ τ _
      rw [sat_of_isBottom (by simpa using hb), sat_of_isBottom (by simpa using hb)]
    | false =>
      obtain ⟨hl, hlive⟩ := live_branch hu hb
      exact DataBranch.dependsOn_sat hl (ih hlive)
  | @manageDeterministOr es s sc hp hd ih =>
    intro σ τ hs
    rw [sat_or_live, sat_or_live, Bool.eq_iff_iff, List.any_eq_true, List.any_eq_true]
    refine exists_congr fun e => and_congr_right fun he => ?_
    obtain ⟨-, hbranch⟩ := live_or hu (List.ne_nil_of_mem he)
    obtain ⟨hl, hlive⟩ := hbranch e he
    obtain ⟨-, hscope⟩ := hp e he
    rw [DataBranch.dependsOn_sat hl (ih e he hlive) (by rw [hscope]; exact hs)]
  | @manageDecomposableAnd ts sc hp h ih =>
    cases hb : (CallTree.manageDecomposableAnd ts).isBottom with
    | true =>
      intro σ τ _
      rw [sat_of_isBottom hb, sat_of_isBottom hb]
    | false =>
      intro σ τ hs
      rw [sat_manageDecomposableAnd, sat_manageDecomposableAnd, Bool.eq_iff_iff,
        List.all_eq_true, List.all_eq_true]
      refine forall₂_congr fun t ht => ?_
      have hsub : t.sat σ = t.sat τ := by
        refine ih t ht (live_and hu hb t ht) fun v hv => hs v ?_
        simp only [Finset.coe_sdiff, Set.mem_sdiff, Finset.mem_coe] at hv ⊢
        exact ⟨mem_unions.mpr ⟨sc t, List.mem_map_of_mem ht, hv.1⟩, hv.2⟩
      rw [hsub]

theorem sat_opposed {a b : DataBranch CallTree} (h : a.Opposed b) (σ : Nat → Bool)
    (ha : (manageBranch a).sat σ = true) : (manageBranch b).sat σ = false := by
  obtain ⟨l, hla, hlb⟩ := h
  simp only [sat_manageBranch, Bool.and_eq_true, DataBranch.unitsHold, List.all_eq_true] at ha
  have hl := ha.1 l hla
  have hn : b.unitsHold σ = false := by
    rw [DataBranch.unitsHold, List.all_eq_false]
    refine ⟨l.neg, hlb, ?_⟩
    simp only [Lit.holds, Lit.neg, beq_iff_eq] at hl ⊢
    simp [hl]
  simp [sat_manageBranch, hn]

end CallTree

section

variable {K : Klay} {isGateVar : List Bool} {R : Type*} [CommSemiring R] {w : Nat → R}
  {W : Int → R}

theorem value_isBottom (hK : K.Evaluates (Node.sumProduct w) W) {t : CallTree}
    (h : t.isBottom = true) : (t.run (klayCircuitOperation K isGateVar)).value w = 0 := by
  have hbranch : ∀ e : DataBranch CallTree,
      (e.d.run (klayCircuitOperation K isGateVar)).value w = 0 →
      (wrapBranch K isGateVar (CallTree.runBranch (klayCircuitOperation K isGateVar) e)).value w
        = 0 := by
    intro e he
    rw [value_wrapBranch hK, CallTree.runBranch_d, he, mul_zero, zero_mul]
  induction t with
  | createTop => simp [CallTree.isBottom, bottomOperation] at h
  | createBottom => exact value_falseNode hK
  | manageBottom => exact value_falseNode hK
  | manageTop vs => simp [CallTree.isBottom, bottomOperation] at h
  | manageBranch e ih => exact hbranch e (ih (by simpa using h))
  | manageDeterministOr es ih =>
    rw [CallTree.run_manageDeterministOr, value_manageDeterministOr hK, List.map_map]
    refine List.sum_eq_zero fun x hx => ?_
    obtain ⟨e, he, rfl⟩ := List.mem_map.mp hx
    exact hbranch e (ih e he (CallTree.isBottom_branch h he))
  | manageDecomposableAnd ts ih =>
    obtain ⟨t, ht, hb⟩ := CallTree.isBottom_and.mp h
    rw [CallTree.run_manageDecomposableAnd, value_manageDecomposableAnd hK]
    exact List.prod_eq_zero (List.mem_map.mpr ⟨_, List.mem_map_of_mem ht, ih t ht hb⟩)

theorem value_or_live (hK : K.Evaluates (Node.sumProduct w) W)
    (es : List (DataBranch CallTree)) :
    ((CallTree.manageDeterministOr es).run (klayCircuitOperation K isGateVar)).value w =
      ((liveBranches es).map fun e => (wrapBranch K isGateVar
        (CallTree.runBranch (klayCircuitOperation K isGateVar) e)).value w).sum := by
  rw [CallTree.run_manageDeterministOr, value_manageDeterministOr hK, List.map_map]
  induction es with
  | nil => rfl
  | cons e es ih =>
    rw [List.map_cons, List.sum_cons, ih, CallTree.liveBranches_cons]
    cases hb : e.d.isBottom with
    | false => simp
    | true =>
      have hzero : (wrapBranch K isGateVar
          (CallTree.runBranch (klayCircuitOperation K isGateVar) e)).value w = 0 := by
        rw [value_wrapBranch hK, CallTree.runBranch_d, value_isBottom hK hb, mul_zero, zero_mul]
      simp [hzero]

theorem count_unitsHold (mw : Nat → Bool → R) {e : DataBranch CallTree}
    (hnodup : (e.unitLits.map Lit.var).Nodup) :
    count mw (e.unitLits.map Lit.var).toFinset (fun σ => e.unitsHold σ) =
      (e.unitLits.map fun l => mw l.var (!l.sign)).prod := by
  have h := count_cube mw (e.unitLits.map fun l => (l.var, !l.sign))
    (by simpa [Function.comp_def] using hnodup)
  simpa only [DataBranch.unitsHold_eq_all, List.map_map, Function.comp_def] using h

theorem count_unmasked (W : Int → R) {vs : List Nat} (hnodup : vs.Nodup) :
    count (maskWeight isGateVar W) (vs.filter fun v => !isMasked isGateVar v).toFinset
        (fun _ => true) =
      ((vs.filter fun v => !isMasked isGateVar v).map fun v : Nat =>
        W v + W (-(v : Int))).prod := by
  rw [count_true, List.prod_toFinset _ (hnodup.filter _)]
  refine congrArg List.prod (List.map_congr_left fun v hv => ?_)
  have hm : isMasked isGateVar v = false := by simpa using (List.mem_filter.mp hv).2
  simp [maskWeight, hm]

/-- The free variables that stay in the scope are the unmasked ones. -/
theorem mem_unmasked {U : Finset Nat} (hU : ∀ v ∈ U, isMasked isGateVar v = true) {vs : List Nat}
    (hvs : ∀ v ∈ vs, isMasked isGateVar v = true → v ∈ U) (v : Nat) :
    v ∈ vs.filter (fun v => !isMasked isGateVar v) ↔ v ∈ vs ∧ v ∉ U := by
  simp only [List.mem_filter, Bool.not_eq_true']
  refine and_congr_right fun hv => ?_
  constructor
  · intro hm hvU
    simp [hU v hvU] at hm
  · intro hvU
    by_contra hm
    exact hvU (hvs v hv (by simpa using hm))

theorem value_branch (hK : K.Evaluates (Node.sumProduct w) W) {U s : Finset Nat}
    (hU : ∀ v ∈ U, isMasked isGateVar v = true) {e : DataBranch CallTree} (hp : e.Partitions s)
    (hu : ∀ l ∈ e.unitLits, l.var ∉ U)
    (hf : ∀ v ∈ e.freeVars, isMasked isGateVar v = true → v ∈ U)
    (hd : DependsOn e.d.sat ((s \ U : Finset Nat) : Set Nat))
    (ih : (e.d.run (klayCircuitOperation K isGateVar)).value w =
      count (maskWeight isGateVar W) (s \ U) e.d.sat) :
    (wrapBranch K isGateVar (CallTree.runBranch (klayCircuitOperation K isGateVar) e)).value w =
      count (maskWeight isGateVar W) (e.scope s \ U) (CallTree.manageBranch e).sat := by
  let units := (e.unitLits.map Lit.var).toFinset
  let kept := e.freeVars.filter fun v => !isMasked isGateVar v
  obtain ⟨hnodup, hout⟩ := hp
  obtain ⟨hnu, hnf, huf⟩ := List.nodup_append.mp hnodup
  have hkept : ∀ v, v ∈ kept ↔ v ∈ e.freeVars ∧ v ∉ U := mem_unmasked hU hf
  have hscope : e.scope s \ U = units ∪ (kept.toFinset ∪ (s \ U)) := by
    ext v
    have hun : v ∈ units → v ∉ U := by
      intro hv
      obtain ⟨l, hl, rfl⟩ := List.mem_map.mp (List.mem_toFinset.mp hv)
      exact hu l hl
    have hk := hkept v
    simp only [DataBranch.scope, DataBranch.ownVars, List.toFinset_append, Finset.mem_sdiff,
      Finset.mem_union, List.mem_toFinset, units] at hun ⊢
    tauto
  have hdisjd : Disjoint kept.toFinset (s \ U) := by
    refine Finset.disjoint_left.mpr fun v hv hvs => ?_
    have hvf := ((hkept v).mp (List.mem_toFinset.mp hv)).1
    exact hout v (List.mem_append_right _ hvf) (Finset.mem_sdiff.mp hvs).1
  have hdisju : Disjoint units (kept.toFinset ∪ (s \ U)) := by
    refine Finset.disjoint_left.mpr fun v hv hvs => ?_
    have hvu := List.mem_toFinset.mp hv
    rcases Finset.mem_union.mp hvs with hk | hvs
    · exact huf v hvu v ((hkept v).mp (List.mem_toFinset.mp hk)).1 rfl
    · exact hout v (List.mem_append_left _ hvu) (Finset.mem_sdiff.mp hvs).1
  have hfree : DependsOn (fun _ : Nat → Bool => true) (kept.toFinset : Set Nat) :=
    fun _ _ _ => rfl
  have hrest : DependsOn (fun σ => true && e.d.sat σ)
      ((kept.toFinset ∪ (s \ U) : Finset Nat) : Set Nat) := hd.mono (by simp)
  have hsat : (CallTree.manageBranch e).sat =
      fun σ => e.unitsHold σ && (true && e.d.sat σ) := by
    funext σ
    rw [CallTree.sat_manageBranch, Bool.true_and]
  rw [value_wrapBranch hK, CallTree.runBranch_d, ih, hscope, hsat,
    count_and hdisju DataBranch.dependsOn_unitsHold hrest, count_and hdisjd hfree hd,
    count_unitsHold _ hnu, count_unmasked W hnf]
  simp only [CallTree.runBranch_unitLits, CallTree.runBranch_freeVars]
  rw [mul_right_comm, mul_assoc]

theorem value_bottom_count (hK : K.Evaluates (Node.sumProduct w) W) {t : CallTree}
    (h : t.isBottom = true) (s : Finset Nat) :
    (t.run (klayCircuitOperation K isGateVar)).value w =
      count (maskWeight isGateVar W) s t.sat := by
  have hsat : t.sat = fun _ => false := funext fun σ => CallTree.sat_of_isBottom h σ
  rw [value_isBottom hK h, hsat, count_false]

theorem value_deterministOr (hK : K.Evaluates (Node.sumProduct w) W) {s : Finset Nat}
    {es : List (DataBranch CallTree)} (hopp : (liveBranches es).Pairwise DataBranch.Opposed)
    (hstep : ∀ e ∈ liveBranches es, (wrapBranch K isGateVar
      (CallTree.runBranch (klayCircuitOperation K isGateVar) e)).value w =
      count (maskWeight isGateVar W) s (CallTree.manageBranch e).sat) :
    ((CallTree.manageDeterministOr es).run (klayCircuitOperation K isGateVar)).value w =
      count (maskWeight isGateVar W) s (CallTree.manageDeterministOr es).sat := by
  have hexcl : (liveBranches es).Pairwise fun a b => ∀ σ,
      (CallTree.manageBranch a).sat σ = true → (CallTree.manageBranch b).sat σ = false :=
    hopp.imp fun h σ => CallTree.sat_opposed h σ
  have hsat : (CallTree.manageDeterministOr es).sat =
      fun σ => (liveBranches es).any fun e => (CallTree.manageBranch e).sat σ :=
    funext (CallTree.sat_or_live es)
  rw [value_or_live hK, hsat, count_any _ _ _ _ hexcl, List.map_congr_left hstep]

theorem value_decomposableAnd (hK : K.Evaluates (Node.sumProduct w) W) {U : Finset Nat}
    {ts : List CallTree} {sc : CallTree → Finset Nat}
    (hp : ts.Pairwise fun t u => Disjoint (sc t) (sc u))
    (hdep : ∀ t ∈ ts, DependsOn t.sat ((sc t \ U : Finset Nat) : Set Nat))
    (hstep : ∀ t ∈ ts, (t.run (klayCircuitOperation K isGateVar)).value w =
      count (maskWeight isGateVar W) (sc t \ U) t.sat) :
    ((CallTree.manageDecomposableAnd ts).run (klayCircuitOperation K isGateVar)).value w =
      count (maskWeight isGateVar W) (unions (ts.map sc) \ U)
        (CallTree.manageDecomposableAnd ts).sat := by
  have hdisj : ts.Pairwise fun t u => Disjoint (sc t \ U) (sc u \ U) :=
    hp.imp fun h => h.mono Finset.sdiff_subset Finset.sdiff_subset
  have hsat : (CallTree.manageDecomposableAnd ts).sat = fun σ => ts.all fun t => t.sat σ :=
    funext (CallTree.sat_manageDecomposableAnd ts)
  have hscope : unions (ts.map sc) \ U = unions (ts.map fun t => sc t \ U) := by
    rw [unions_sdiff, List.map_map]
    rfl
  rw [CallTree.run_manageDecomposableAnd, value_manageDecomposableAnd hK, List.map_map,
    hsat, hscope, count_all _ _ _ ts hdisj hdep]
  exact congrArg List.prod (List.map_congr_left hstep)

/-- The circuit of a run counts its scope, provided that the masked variables `U` that may be
free are decided by no unit literal, and no other masked variable is free. -/
theorem value_run (hK : K.Evaluates (Node.sumProduct w) W) {U : Finset Nat}
    (hU : ∀ v ∈ U, isMasked isGateVar v = true) {t : CallTree} {s : Finset Nat}
    (hs : t.HasScope s) (hdet : t.Deterministic) (htop : t.PlainTops)
    (hu : t.EachBranch fun e => ∀ l ∈ e.unitLits, l.var ∉ U)
    (hf : t.EachBranch fun e => ∀ v ∈ e.freeVars, isMasked isGateVar v = true → v ∈ U) :
    (t.run (klayCircuitOperation K isGateVar)).value w =
      count (maskWeight isGateVar W) (s \ U) t.sat := by
  induction hs with
  | bottom h => exact value_bottom_count hK h _
  | createTop =>
    rw [Finset.empty_sdiff, count_empty]
    exact value_trueNode hK
  | @manageTop vs h =>
    have hvs : vs = [] := CallTree.live_top (T := (· = [])) htop
    subst hvs
    rw [List.toFinset_nil, Finset.empty_sdiff, count_empty]
    exact value_trueNode hK
  | @manageBranch e s hp hd ih =>
    cases hb : e.d.isBottom with
    | true => exact value_bottom_count hK (by simpa using hb) _
    | false =>
      obtain ⟨-, hdet'⟩ := CallTree.live_branch hdet hb
      obtain ⟨hul, hu'⟩ := CallTree.live_branch hu hb
      obtain ⟨hfl, hf'⟩ := CallTree.live_branch hf hb
      obtain ⟨-, htop'⟩ := CallTree.live_branch htop hb
      exact value_branch hK hU hp hul hfl (CallTree.dependsOn_sat hd hu')
        (ih hdet' htop' hu' hf')
  | @manageDeterministOr es s sc hp hd ih =>
    by_cases hne : liveBranches es = []
    · exact value_bottom_count hK (CallTree.isBottom_or.mpr hne) _
    obtain ⟨hopp, hdet'⟩ := CallTree.live_or hdet hne
    obtain ⟨-, hu'⟩ := CallTree.live_or hu hne
    obtain ⟨-, hf'⟩ := CallTree.live_or hf hne
    obtain ⟨-, htop'⟩ := CallTree.live_or htop hne
    refine value_deterministOr hK hopp fun e he => ?_
    obtain ⟨hpart, rfl⟩ := hp e he
    exact value_branch hK hU hpart (hu' e he).1 (hf' e he).1
      (CallTree.dependsOn_sat (hd e he) (hu' e he).2)
      (ih e he (hdet' e he).2 (htop' e he).2 (hu' e he).2 (hf' e he).2)
  | @manageDecomposableAnd ts sc hp h ih =>
    cases hb : (CallTree.manageDecomposableAnd ts).isBottom with
    | true => exact value_bottom_count hK hb _
    | false =>
      refine value_decomposableAnd hK hp (fun t ht => ?_) fun t ht => ?_
      · exact CallTree.dependsOn_sat (h t ht) (CallTree.live_and hu hb t ht)
      · exact ih t ht (CallTree.live_and hdet hb t ht) (CallTree.live_and htop hb t ht)
          (CallTree.live_and hu hb t ht) (CallTree.live_and hf hb t ht)

end

end Kompyle
