import Kompyle.CircuitStructure
import Kompyle.DeterministicCircuit
import Kompyle.MaskProjection
import Mathlib.Data.List.Pairwise

namespace Kompyle

open WeightedCount

namespace CallTree

/-- In a model of the run, the unmasked variables of the scope leave the others one value each,
those in `U` aside. -/
def Determines (isGateVar : List Bool) (t : CallTree) (s U : Finset Nat) : Prop :=
  ∀ τ τ', t.sat τ = true → t.sat τ' = true →
    (∀ v ∈ s, isMasked isGateVar v = false → τ v = τ' v) → ∀ v ∈ s, v ∉ U → τ v = τ' v

section

variable {isGateVar : List Bool} {e : DataBranch CallTree} {s U : Finset Nat}

theorem determines_d (hp : e.Partitions s) (hd : e.d.HasScope s)
    (h : (manageBranch e).Determines isGateVar (e.scope s) U) :
    e.d.Determines isGateVar s U := by
  intro τ τ' hτ hτ' hagree v hv hvU
  obtain ⟨σ, hsame, hunits⟩ := exists_unitsHold hp τ
  have hout : ∀ u ∈ s, u ∉ e.unitLits.map Lit.var :=
    fun u hu hm => hp.2 u (List.mem_append_left _ hm) hu
  let σ' : Nat → Bool := fun u => if u ∈ s then τ' u else σ u
  have hσ : ∀ u ∈ s, σ u = τ u := fun u hu => hsame u (hout u hu)
  have hσ' : ∀ u ∈ s, σ' u = τ' u := fun u hu => if_pos hu
  have hunits' : e.unitsHold σ' = e.unitsHold σ := by
    refine DataBranch.dependsOn_unitsHold fun u hu => if_neg fun hs => ?_
    exact hout u hs (List.mem_toFinset.mp hu)
  have hsat : (manageBranch e).sat σ = true := by
    rw [sat_manageBranch, hunits, dependsOn_scope hd hσ, hτ]
    rfl
  have hsat' : (manageBranch e).sat σ' = true := by
    rw [sat_manageBranch, hunits', hunits, dependsOn_scope hd hσ', hτ']
    rfl
  have hunmasked : ∀ u ∈ e.scope s, isMasked isGateVar u = false → σ u = σ' u := by
    intro u _ hm
    by_cases hu : u ∈ s
    · rw [hσ u hu, hσ' u hu, hagree u hu hm]
    · exact (if_neg hu).symm
  have heq := h σ σ' hsat hsat' hunmasked v (Finset.mem_union_right _ hv) hvU
  rwa [hσ v hv, hσ' v hv] at heq

theorem sat_live_branch {es : List (DataBranch CallTree)} (he : e ∈ liveBranches es)
    {σ : Nat → Bool} (h : (manageBranch e).sat σ = true) :
    (manageDeterministOr es).sat σ = true := by
  rw [sat_or_live]
  exact List.any_eq_true.mpr ⟨e, he, h⟩

theorem determines_branch {es : List (DataBranch CallTree)} (he : e ∈ liveBranches es)
    (h : (manageDeterministOr es).Determines isGateVar s U) :
    (manageBranch e).Determines isGateVar s U :=
  fun τ τ' hτ hτ' => h τ τ' (sat_live_branch he hτ) (sat_live_branch he hτ')

theorem determines_part {ts : List CallTree} {sc : CallTree → Finset Nat}
    (hp : ts.Pairwise fun t u => Disjoint (sc t) (sc u)) (hs : ∀ t ∈ ts, t.HasScope (sc t))
    (hb : (manageDecomposableAnd ts).isBottom = false) {t : CallTree} (ht : t ∈ ts)
    (h : (manageDecomposableAnd ts).Determines isGateVar (unions (ts.map sc)) U) :
    t.Determines isGateVar (sc t) U := by
  intro τ τ' hτ hτ' hagree v hv hvU
  obtain ⟨σ, hσ, hothers⟩ := exists_sat_others hp hs hb ht τ
  let σ' : Nat → Bool := fun u => if u ∈ sc t then τ' u else σ u
  have hσ' : ∀ u ∈ sc t, σ' u = τ' u := fun u hu => if_pos hu
  have hall : ∀ ρ, (∀ u, u ∉ sc t → ρ u = σ u) → t.sat ρ = true →
      (manageDecomposableAnd ts).sat ρ = true := by
    intro ρ hρ hsat
    rw [sat_manageDecomposableAnd, List.all_eq_true]
    intro u hu
    by_cases hut : u = t
    · rwa [hut]
    · rw [← hothers u hu hut]
      refine dependsOn_scope (hs u hu) fun x hx => hρ x fun hxt => ?_
      have : Std.Symm fun t u => Disjoint (sc t) (sc u) := ⟨fun _ _ h => h.symm⟩
      exact Finset.disjoint_left.mp (hp.forall hu ht hut) hx hxt
  have hsat := hall σ (fun _ _ => rfl) ((dependsOn_scope (hs t ht) hσ).trans hτ)
  have hsat' := hall σ' (fun u hu => if_neg hu) ((dependsOn_scope (hs t ht) hσ').trans hτ')
  have hunmasked : ∀ u ∈ unions (ts.map sc), isMasked isGateVar u = false → σ u = σ' u := by
    intro u _ hm
    by_cases hu : u ∈ sc t
    · rw [hσ u hu, hσ' u hu, hagree u hu hm]
    · exact (if_neg hu).symm
  have hin : v ∈ unions (ts.map sc) := mem_unions.mpr ⟨sc t, List.mem_map_of_mem ht, hv⟩
  have heq := h σ σ' hsat hsat' hunmasked v hin hvU
  rwa [hσ v hv, hσ' v hv] at heq

end

end CallTree

/-- Complementary literals, and no others, have indices that differ in the lowest bit only. -/
def Klay.Complements (K : Klay) : Prop :=
  ∀ l : Int, l ≠ 0 → K.internalVal (-l) = K.internalVal l ^^^ 1

section

variable {K : Klay} {isGateVar : List Bool} {σ τ : Nat → Bool}

/-- An assignment of the literals by index, as one of the variables. -/
def varHolds (K : Klay) (σ : Nat → Bool) (v : Nat) : Bool := σ (K.internalVal v)

theorem Klay.Denotes.evaluates (hden : K.Denotes) (hneg : K.Complements) (hσ : Complementary σ) :
    K.Evaluates (Node.boolean σ) (literalHolds (varHolds K σ)) := by
  have hlit : (fun l => σ (K.internalVal l)) = literalHolds (varHolds K σ) := by
    funext l
    unfold literalHolds varHolds
    by_cases hl : 0 ≤ l
    · have habs : (l.natAbs : Int) = l := by omega
      rw [habs, decide_eq_true hl, beq_true]
    · have habs : (l.natAbs : Int) = -l := by omega
      have hflip := hneg l (by omega)
      rw [habs, decide_eq_false hl, hflip, hσ]
      simp
  rw [← hlit]
  exact hden σ hσ

theorem denote_isBottom (hK : K.Simplifies) {t : CallTree} (h : t.isBottom = true) :
    (t.run (klayCircuitOperation K isGateVar)).denote σ = false :=
  Node.read_false _ (run_isBottom hK h)

/-- Where the circuit is true, values of the masked variables can be found for the run. -/
theorem satisfiable_of_denote (hS : K.Simplifies)
    (hK : K.Evaluates (Node.boolean σ) (literalHolds τ)) {t : CallTree} {s : Finset Nat}
    (hs : t.HasScope s) (h0 : 0 ∉ s)
    (h : (t.run (klayCircuitOperation K isGateVar)).denote σ = true) :
    Satisfiable isGateVar t τ := by
  have hbranch : ∀ {e : DataBranch CallTree} {s : Finset Nat}, e.Partitions s →
      e.d.HasScope s → 0 ∉ e.scope s →
      (0 ∉ s → (e.d.run (klayCircuitOperation K isGateVar)).denote σ = true →
        Satisfiable isGateVar e.d τ) →
      (wrapBranch K isGateVar
        (CallTree.runBranch (klayCircuitOperation K isGateVar) e)).denote σ = true →
      Satisfiable isGateVar (.manageBranch e) τ := by
    intro e s hp hd h0 ih h
    have hown : ∀ v ∈ (CallTree.runBranch (klayCircuitOperation K isGateVar) e).ownVars,
        v ≠ 0 := by
      intro v hv hv0
      refine h0 (Finset.mem_union_left _ (List.mem_toFinset.mpr ?_))
      simpa [DataBranch.ownVars, hv0] using hv
    obtain ⟨hunits, hden⟩ := (denote_wrapBranch hK hown).mp h
    rw [CallTree.runBranch_unitLits] at hunits
    rw [CallTree.runBranch_d] at hden
    have hsat := ih (fun h => h0 (Finset.mem_union_right _ h)) hden
    exact satisfiable_manageBranch hp (CallTree.dependsOn_scope hd) hunits hsat
  induction hs with
  | bottom hb =>
    rw [denote_isBottom hS hb] at h
    cases h
  | createTop => exact ⟨τ, fun _ _ => rfl, rfl⟩
  | manageTop => exact ⟨τ, fun _ _ => rfl, rfl⟩
  | @manageBranch e s hp hd ih => exact hbranch hp hd h0 ih h
  | @manageDeterministOr es s sc hp hd ih =>
    rw [CallTree.run_manageDeterministOr, denote_manageDeterministOr hK, List.any_map,
      List.any_eq_true] at h
    obtain ⟨e, he, hden⟩ := h
    have hlive : e ∈ liveBranches es := by
      refine CallTree.mem_liveBranches.mpr ⟨he, ?_⟩
      by_contra hb
      have hfalse : (wrapBranch K isGateVar
          (CallTree.runBranch (klayCircuitOperation K isGateVar) e)).isFalse = true := by
        refine wrapBranch_false hS ?_
        rw [CallTree.runBranch_d]
        exact run_isBottom hS (by simpa using hb)
      have hzero : (wrapBranch K isGateVar
          (CallTree.runBranch (klayCircuitOperation K isGateVar) e)).denote σ = false :=
        Node.read_false _ hfalse
      rw [Function.comp_apply, hzero] at hden
      cases hden
    obtain ⟨hpart, rfl⟩ := hp e hlive
    obtain ⟨τ', hagree, hsat⟩ := hbranch hpart (hd e hlive) h0 (ih e hlive) hden
    exact ⟨τ', hagree, CallTree.sat_live_branch hlive hsat⟩
  | @manageDecomposableAnd ts sc hp hs ih =>
    rw [CallTree.run_manageDecomposableAnd, denote_manageDecomposableAnd hK, List.all_map,
      List.all_eq_true] at h
    have hdep : ∀ t ∈ ts, DependsOn t.sat (sc t : Set Nat) :=
      fun t ht => CallTree.dependsOn_scope (hs t ht)
    refine satisfiable_manageDecomposableAnd hp hdep fun t ht => ih t ht (fun hm => h0 ?_) (h t ht)
    exact mem_unions.mpr ⟨sc t, List.mem_map_of_mem ht, hm⟩

/-- Conversely, a model of the run makes the circuit true for all that agree with it unmasked. -/
theorem denote_of_sat (hK : K.Evaluates (Node.boolean σ) (literalHolds τ)) {t : CallTree}
    {s : Finset Nat} (hs : t.HasScope s) (h0 : 0 ∉ s) {τ' : Nat → Bool}
    (hagree : AgreeUnmasked isGateVar τ' τ) (h : t.sat τ' = true) :
    (t.run (klayCircuitOperation K isGateVar)).denote σ = true := by
  have hbranch : ∀ {e : DataBranch CallTree} {s : Finset Nat}, 0 ∉ e.scope s →
      (e.d.sat τ' = true → (e.d.run (klayCircuitOperation K isGateVar)).denote σ = true) →
      (CallTree.manageBranch e).sat τ' = true →
      (wrapBranch K isGateVar
        (CallTree.runBranch (klayCircuitOperation K isGateVar) e)).denote σ = true := by
    intro e s h0 ih h
    rw [CallTree.sat_manageBranch, Bool.and_eq_true] at h
    have hown : ∀ v ∈ (CallTree.runBranch (klayCircuitOperation K isGateVar) e).ownVars,
        v ≠ 0 := by
      intro v hv hv0
      refine h0 (Finset.mem_union_left _ (List.mem_toFinset.mpr ?_))
      simpa [DataBranch.ownVars, hv0] using hv
    rw [denote_wrapBranch hK hown, CallTree.runBranch_unitLits, CallTree.runBranch_d]
    refine ⟨fun l hl hm => ?_, ih h.2⟩
    have hholds := List.all_eq_true.mp h.1 l hl
    rwa [Lit.holds, hagree l.var hm] at hholds
  induction hs with
  | bottom hb =>
    rw [CallTree.sat_of_isBottom hb] at h
    cases h
  | createTop => exact denote_trueNode hK
  | manageTop => exact denote_trueNode hK
  | @manageBranch e s hp hd ih =>
    exact hbranch h0 (ih fun hm => h0 (Finset.mem_union_right _ hm)) h
  | @manageDeterministOr es s sc hp hd ih =>
    rw [CallTree.sat_or_live, List.any_eq_true] at h
    obtain ⟨e, he, hsat⟩ := h
    obtain ⟨-, rfl⟩ := hp e he
    rw [CallTree.run_manageDeterministOr, denote_manageDeterministOr hK, List.any_map,
      List.any_eq_true]
    exact ⟨e, (CallTree.mem_liveBranches.mp he).1,
      hbranch h0 (ih e he fun hm => h0 (Finset.mem_union_right _ hm)) hsat⟩
  | @manageDecomposableAnd ts sc hp hs ih =>
    rw [CallTree.sat_manageDecomposableAnd, List.all_eq_true] at h
    rw [CallTree.run_manageDecomposableAnd, denote_manageDecomposableAnd hK, List.all_map,
      List.all_eq_true]
    refine fun t ht => ih t ht (fun hm => h0 ?_) (h t ht)
    exact mem_unions.mpr ⟨sc t, List.mem_map_of_mem ht, hm⟩

/-- Branches that decide one variable apart exclude each other, also where it is masked: both
true, they would leave it both values. -/
theorem exclusive_branches (hS : K.Simplifies) (hden : K.Denotes) (hneg : K.Complements)
    {a b : DataBranch CallTree} {es : List (DataBranch CallTree)} {s U : Finset Nat}
    (ha : a ∈ liveBranches es) (hb : b ∈ liveBranches es)
    (hsa : (CallTree.manageBranch a).HasScope s) (hsb : (CallTree.manageBranch b).HasScope s)
    (h0 : 0 ∉ s) (hua : ∀ l ∈ a.unitLits, l.var ∈ s ∧ l.var ∉ U) (hab : a.Opposed b)
    (h : (CallTree.manageDeterministOr es).Determines isGateVar s U) :
    Node.Exclusive
      (wrapBranch K isGateVar (CallTree.runBranch (klayCircuitOperation K isGateVar) a))
      (wrapBranch K isGateVar (CallTree.runBranch (klayCircuitOperation K isGateVar) b)) := by
  intro σ hσ hda
  by_contra hdb
  have hK := hden.evaluates hneg hσ
  obtain ⟨τa, hagreea, hsata⟩ := satisfiable_of_denote hS hK hsa h0 hda
  obtain ⟨τb, hagreeb, hsatb⟩ := satisfiable_of_denote hS hK hsb h0 (eq_true_of_ne_false hdb)
  obtain ⟨l, hla, hlb⟩ := hab
  obtain ⟨hls, hlU⟩ := hua l hla
  have heq : τa l.var = τb l.var := by
    refine h τa τb (CallTree.sat_live_branch ha hsata) (CallTree.sat_live_branch hb hsatb) ?_
      l.var hls hlU
    exact fun v _ hm => (hagreea v hm).trans (hagreeb v hm).symm
  rw [CallTree.sat_manageBranch, Bool.and_eq_true] at hsata hsatb
  have hta := List.all_eq_true.mp hsata.1 l hla
  have htb := List.all_eq_true.mp hsatb.1 l.neg hlb
  simp only [Lit.holds, Lit.neg, heq, beq_iff_eq] at hta htb
  rw [hta] at htb
  simp at htb

theorem deterministic_literal (hS : K.Simplifies) (l : Int) :
    (K.literalNode l).Deterministic := by
  have htype := (hS.literalNode l).1
  exact Node.deterministic_leaf (by simp [htype]) (by simp [htype])

theorem deterministic_tautology (hS : K.Simplifies) (hden : K.Denotes) (hneg : K.Complements)
    {v : Nat} (h0 : v ≠ 0) : (makeTautology K v).Deterministic := by
  refine Node.deterministic_orOf (hS.orNode _) ?_ ?_
  · intro x hx
    rcases List.mem_pair.mp hx with rfl | rfl <;> exact deterministic_literal hS _
  · refine List.pairwise_pair.mpr fun σ hσ hpos => ?_
    rw [denote_literal (hden σ hσ)] at hpos ⊢
    rw [hneg v (by omega), hσ, hpos]
    rfl

theorem deterministic_wrapBranch (hS : K.Simplifies) (hden : K.Denotes) (hneg : K.Complements)
    {b : DataBranch Node} (h0 : ∀ v ∈ b.freeVars, v ≠ 0) (hd : b.d.Deterministic) :
    (wrapBranch K isGateVar b).Deterministic := by
  rw [wrapBranch_eq]
  refine Node.deterministic_andOf (hS.andNode _) fun x hx => ?_
  rcases List.mem_append.mp hx with hx | hx
  · rcases List.mem_append.mp hx with hx | hx
    · obtain ⟨l, -, rfl⟩ := List.mem_map.mp hx
      split
      next => exact Node.deterministic_constant (Or.inl hS.trueNode)
      next => exact deterministic_literal hS _
    · rwa [List.mem_singleton.mp hx]
  · obtain ⟨v, hv, rfl⟩ := List.mem_map.mp hx
    exact deterministic_tautology hS hden hneg (h0 v (List.mem_of_mem_filter hv))

theorem deterministic_branch (hS : K.Simplifies) (hden : K.Denotes) (hneg : K.Complements)
    {e : DataBranch CallTree} {s : Finset Nat} (h0 : 0 ∉ e.scope s)
    (hd : (e.d.run (klayCircuitOperation K isGateVar)).Deterministic) :
    (wrapBranch K isGateVar
      (CallTree.runBranch (klayCircuitOperation K isGateVar) e)).Deterministic := by
  refine deterministic_wrapBranch hS hden hneg ?_ (by rwa [CallTree.runBranch_d])
  intro v hv hv0
  rw [CallTree.runBranch_freeVars] at hv
  refine h0 (Finset.mem_union_left _ (List.mem_toFinset.mpr ?_))
  exact List.mem_append_right _ (hv0 ▸ hv)

theorem exclusive_of_isBottom (hS : K.Simplifies) {e : DataBranch CallTree}
    (hb : e.d.isBottom = true) (n : Node) :
    (wrapBranch K isGateVar
      (CallTree.runBranch (klayCircuitOperation K isGateVar) e)).Exclusive n := by
  intro σ _ h
  have hfalse : (wrapBranch K isGateVar
      (CallTree.runBranch (klayCircuitOperation K isGateVar) e)).isFalse = true := by
    refine wrapBranch_false hS ?_
    rw [CallTree.runBranch_d]
    exact run_isBottom hS hb
  have hzero := Node.read_false (Node.boolean σ) hfalse
  rw [Node.denote, hzero] at h
  cases h

theorem pairwise_exclusive (hS : K.Simplifies) (hden : K.Denotes) (hneg : K.Complements)
    {es : List (DataBranch CallTree)} {s U : Finset Nat} {sc : DataBranch CallTree → Finset Nat}
    (hp : ∀ e ∈ liveBranches es, e.Partitions (sc e) ∧ e.scope (sc e) = s)
    (hd : ∀ e ∈ liveBranches es, e.d.HasScope (sc e)) (h0 : 0 ∉ s)
    (hdet : (CallTree.manageDeterministOr es).Deterministic)
    (hu : (CallTree.manageDeterministOr es).EachBranch fun e => ∀ l ∈ e.unitLits, l.var ∉ U)
    (h : (CallTree.manageDeterministOr es).Determines isGateVar s U) :
    es.Pairwise fun a b => Node.Exclusive
      (wrapBranch K isGateVar (CallTree.runBranch (klayCircuitOperation K isGateVar) a))
      (wrapBranch K isGateVar (CallTree.runBranch (klayCircuitOperation K isGateVar) b)) := by
  by_cases hne : liveBranches es = []
  · refine List.pairwise_of_forall_mem_list fun a ha b _ => exclusive_of_isBottom hS ?_ _
    exact CallTree.isBottom_branch (CallTree.isBottom_or.mpr hne) ha
  have hopposed := (CallTree.live_or hdet hne).1
  have hunits := (CallTree.live_or hu hne).2
  have hscope : ∀ c ∈ liveBranches es, (CallTree.manageBranch c).HasScope s := by
    intro c hc
    obtain ⟨hpart, rfl⟩ := hp c hc
    exact .manageBranch hpart (hd c hc)
  refine (List.pairwise_filter.mp hopposed).imp_of_mem fun {a b} ha hb hab => ?_
  cases hba : a.d.isBottom with
  | true => exact exclusive_of_isBottom hS hba _
  | false =>
    cases hbb : b.d.isBottom with
    | true => exact (exclusive_of_isBottom hS hbb _).symm
    | false =>
      have hla := CallTree.mem_liveBranches.mpr ⟨ha, hba⟩
      have hlb := CallTree.mem_liveBranches.mpr ⟨hb, hbb⟩
      refine exclusive_branches hS hden hneg hla hlb (hscope a hla) (hscope b hlb) h0 ?_
        (hab (by simp [hba]) (by simp [hbb])) h
      intro l hl
      refine ⟨?_, (hunits a hla).1 l hl⟩
      rw [← (hp a hla).2]
      exact Finset.mem_union_left _ (List.mem_toFinset.mpr
        (List.mem_append_left _ (List.mem_map_of_mem hl)))

theorem deterministic_run (hS : K.Simplifies) (hden : K.Denotes) (hneg : K.Complements)
    {t : CallTree} {s U : Finset Nat} (hs : t.HasScope s) (h0 : 0 ∉ s) (hdet : t.Deterministic)
    (hu : t.EachBranch fun e => ∀ l ∈ e.unitLits, l.var ∉ U)
    (h : t.Determines isGateVar s U) :
    (t.run (klayCircuitOperation K isGateVar)).Deterministic := by
  induction hs with
  | bottom hb => exact Node.deterministic_constant (Or.inr (run_isBottom hS hb))
  | createTop => exact Node.deterministic_constant (Or.inl hS.trueNode)
  | manageTop => exact Node.deterministic_constant (Or.inl hS.trueNode)
  | @manageBranch e s hp hd ih =>
    cases hb : e.d.isBottom with
    | true => exact Node.deterministic_constant (Or.inr (run_isBottom hS (by simpa using hb)))
    | false =>
      have h0s : 0 ∉ s := fun hm => h0 (Finset.mem_union_right _ hm)
      exact deterministic_branch hS hden hneg h0 (ih h0s (CallTree.live_branch hdet hb).2
        (CallTree.live_branch hu hb).2 (CallTree.determines_d hp hd h))
  | @manageDeterministOr es s sc hp hd ih =>
    rw [CallTree.run_manageDeterministOr]
    refine Node.deterministic_orOf (orOf_manage hS _) ?_ ?_
    · intro x hx
      rw [List.map_map] at hx
      obtain ⟨e, he, rfl⟩ := List.mem_map.mp hx
      cases hb : e.d.isBottom with
      | true =>
        refine Node.deterministic_constant (Or.inr (wrapBranch_false hS ?_))
        rw [CallTree.runBranch_d]
        exact run_isBottom hS hb
      | false =>
        have hlive := CallTree.mem_liveBranches.mpr ⟨he, hb⟩
        have hne := List.ne_nil_of_mem hlive
        obtain ⟨hpart, rfl⟩ := hp e hlive
        have h0s : 0 ∉ sc e := fun hm => h0 (Finset.mem_union_right _ hm)
        exact deterministic_branch hS hden hneg h0 (ih e hlive h0s
          ((CallTree.live_or hdet hne).2 e hlive).2 ((CallTree.live_or hu hne).2 e hlive).2
          (CallTree.determines_d hpart (hd e hlive) (CallTree.determines_branch hlive h)))
    · rw [List.map_map, List.pairwise_map]
      exact pairwise_exclusive hS hden hneg hp hd h0 hdet hu h
  | @manageDecomposableAnd ts sc hp hs ih =>
    cases hb : (CallTree.manageDecomposableAnd ts).isBottom with
    | true => exact Node.deterministic_constant (Or.inr (run_isBottom hS hb))
    | false =>
      rw [CallTree.run_manageDecomposableAnd]
      refine Node.deterministic_andOf (andOf_manage hS _) fun x hx => ?_
      obtain ⟨t, ht, rfl⟩ := List.mem_map.mp hx
      have h0t : 0 ∉ sc t :=
        fun hm => h0 (mem_unions.mpr ⟨sc t, List.mem_map_of_mem ht, hm⟩)
      exact ih t ht h0t (CallTree.live_and hdet hb t ht) (CallTree.live_and hu hb t ht)
        (CallTree.determines_part hp hs hb ht h)

/-- Masking the variables that the others determine keeps the circuit deterministic: any two
children of an or exclude each other, although the literal that tells them apart may be masked.
The variables of `U` are never decided. -/
theorem klayCircuit_deterministic (hS : K.Simplifies) (hden : K.Denotes) (hneg : K.Complements)
    {t : CallTree} {s U : Finset Nat} (hs : t.HasScope s) (h0 : 0 ∉ s) (hdet : t.Deterministic)
    (hu : t.EachBranch fun e => ∀ l ∈ e.unitLits, l.var ∉ U)
    (h : t.Determines isGateVar s U) :
    (t.run (klayCircuitOperation K isGateVar)).Deterministic :=
  deterministic_run hS hden hneg hs h0 hdet hu h

end

/-- A run on `x3 = x1 and x2` that decides `x3` first. -/
def conjunctionRun : CallTree :=
  .manageDeterministOr [⟨.createTop, [⟨3, false⟩, ⟨1, false⟩, ⟨2, false⟩], []⟩,
    ⟨.manageDeterministOr [⟨.createTop, [⟨1, true⟩], [2]⟩,
      ⟨.createTop, [⟨1, false⟩, ⟨2, true⟩], []⟩], [⟨3, true⟩], []⟩]

theorem conjunctionRun_hasScope : conjunctionRun.HasScope {1, 2, 3} := by
  have hd : CallTree.HasScope (.manageDeterministOr [⟨.createTop, [⟨1, true⟩], [2]⟩,
      ⟨.createTop, [⟨1, false⟩, ⟨2, true⟩], []⟩]) {1, 2} := by
    refine .manageDeterministOr (fun _ => ∅) ?_ fun e he => ?_
    · unfold DataBranch.Partitions
      decide
    · rcases List.mem_pair.mp he with rfl | rfl <;> exact .createTop
  refine .manageDeterministOr (fun e => if e.unitLits.length = 1 then {1, 2} else ∅) ?_ ?_
  · unfold DataBranch.Partitions
    decide
  · intro e he
    rcases List.mem_pair.mp he with rfl | rfl
    · exact .createTop
    · exact hd

theorem conjunctionRun_deterministic : conjunctionRun.Deterministic := by
  have hd : CallTree.Deterministic (.manageDeterministOr [⟨.createTop, [⟨1, true⟩], [2]⟩,
      ⟨.createTop, [⟨1, false⟩, ⟨2, true⟩], []⟩]) := by
    refine .manageDeterministOr ?_ (fun _ _ => trivial) fun e he => ?_
    · exact List.pairwise_pair.mpr ⟨⟨1, true⟩, by simp, by decide⟩
    · rcases List.mem_pair.mp he with rfl | rfl <;> exact .createTop
  refine .manageDeterministOr ?_ (fun _ _ => trivial) fun e he => ?_
  · exact List.pairwise_pair.mpr ⟨⟨3, false⟩, by simp, by decide⟩
  · rcases List.mem_pair.mp he with rfl | rfl
    · exact .createTop
    · exact hd

theorem conjunctionRun_determines :
    conjunctionRun.Determines [false, false, false, true] {1, 2, 3} ∅ := by
  have hsat : ∀ τ, conjunctionRun.sat τ = true → τ 3 = (τ 1 && τ 2) := by
    intro τ
    cases h₁ : τ 1 <;> cases h₂ : τ 2 <;> cases h₃ : τ 3 <;>
      simp [conjunctionRun, CallTree.sat, satOperation, DataBranch.unitsHold, Lit.holds,
        CallTree.runBranch, h₁, h₂, h₃]
  intro τ τ' hτ hτ' hagree v hv _
  have h₁ := hagree 1 (by simp) rfl
  have h₂ := hagree 2 (by simp) rfl
  simp only [Finset.mem_insert, Finset.mem_singleton] at hv
  rcases hv with rfl | rfl | rfl
  · exact h₁
  · exact h₂
  · rw [hsat τ hτ, hsat τ' hτ', h₁, h₂]

theorem reference_complements : Klay.reference.Complements := by
  intro l hl
  change Klay.literalCode (-l) = Klay.literalCode l ^^^ 1
  have hdiv := xor_one_div (Klay.literalCode l)
  have hne := xor_one_ne (Klay.literalCode l)
  have hcode : Klay.literalCode (-l) / 2 = Klay.literalCode l / 2 ∧
      Klay.literalCode (-l) ≠ Klay.literalCode l := by
    unfold Klay.literalCode
    rw [Int.natAbs_neg]
    split <;> split <;> omega
  omega

theorem conjunctionRun_circuit : (conjunctionRun.run
    (klayCircuitOperation Klay.reference [false, false, false, true])).Deterministic :=
  klayCircuit_deterministic Klay.reference_simplifies reference_complementary
    reference_complements conjunctionRun_hasScope (by decide) conjunctionRun_deterministic
    (CallTree.live_mono (fun _ _ => trivial) (fun _ _ _ _ => by simp) (fun _ _ => trivial)
      conjunctionRun_deterministic)
    conjunctionRun_determines

end Kompyle
