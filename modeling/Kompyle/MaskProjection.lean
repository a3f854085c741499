import Kompyle.CircuitLeaves
import Kompyle.FreeVariables
import Kompyle.KlayReference

namespace Kompyle

open WeightedCount

namespace CallTree

/-- The parts of every and, and the unit literals, free variables and `d` of every branch, are
over disjoint variables. -/
inductive Disjointed : CallTree → Prop
  | createTop : Disjointed .createTop
  | createBottom : Disjointed .createBottom
  | manageBottom : Disjointed .manageBottom
  | manageTop (vs : List Nat) : Disjointed (.manageTop vs)
  | manageBranch {e : DataBranch CallTree} (hp : e.Partitions e.d.mentioned.toFinset)
      (hd : Disjointed e.d) : Disjointed (.manageBranch e)
  | manageDeterministOr {es : List (DataBranch CallTree)}
      (h : ∀ e ∈ es, Disjointed (.manageBranch e)) : Disjointed (.manageDeterministOr es)
  | manageDecomposableAnd {ts : List CallTree}
      (hp : ts.Pairwise fun t u => Disjoint t.mentioned.toFinset u.mentioned.toFinset)
      (h : ∀ t ∈ ts, Disjointed t) : Disjointed (.manageDecomposableAnd ts)

/-- Satisfaction looks at the variables of the run only. -/
theorem sat_mentioned (t : CallTree) {σ τ : Nat → Bool} (h : ∀ v ∈ t.mentioned, σ v = τ v) :
    t.sat σ = t.sat τ := by
  have hbranch : ∀ e : DataBranch CallTree,
      ((∀ v ∈ e.d.mentioned, σ v = τ v) → e.d.sat σ = e.d.sat τ) →
      (∀ v ∈ (CallTree.manageBranch e).mentioned, σ v = τ v) →
        (CallTree.manageBranch e).sat σ = (CallTree.manageBranch e).sat τ := by
    intro e ih he
    rw [mentioned_manageBranch] at he
    have hunits : e.unitsHold σ = e.unitsHold τ := by
      refine DataBranch.dependsOn_unitsHold fun v hv => he v ?_
      exact List.mem_append_left _ (List.mem_append_left _ (List.mem_toFinset.mp hv))
    rw [sat_manageBranch, sat_manageBranch, hunits,
      ih fun v hv => he v (List.mem_append_right _ hv)]
  induction t with
  | createTop => rfl
  | createBottom => rfl
  | manageBottom => rfl
  | manageTop vs => rfl
  | manageBranch e ih => exact hbranch e ih h
  | manageDeterministOr es ih =>
    rw [mentioned_manageDeterministOr] at h
    rw [sat_manageDeterministOr, sat_manageDeterministOr, Bool.eq_iff_iff, List.any_eq_true,
      List.any_eq_true]
    refine exists_congr fun e => and_congr_right fun he => ?_
    rw [hbranch e (ih e he) fun v hv => h v (List.mem_flatMap.mpr ⟨e, he, hv⟩)]
  | manageDecomposableAnd ts ih =>
    rw [mentioned_manageDecomposableAnd] at h
    rw [sat_manageDecomposableAnd, sat_manageDecomposableAnd, Bool.eq_iff_iff,
      List.all_eq_true, List.all_eq_true]
    refine forall₂_congr fun t ht => ?_
    rw [ih t ht fun v hv => h v (List.mem_flatMap.mpr ⟨t, ht, hv⟩)]

end CallTree

/-- The assignments differ on masked variables only. -/
def AgreeUnmasked (isGateVar : List Bool) (σ τ : Nat → Bool) : Prop :=
  ∀ v, isMasked isGateVar v = false → σ v = τ v

/-- Some values of the masked variables make the run true. -/
def Satisfiable (isGateVar : List Bool) (t : CallTree) (τ : Nat → Bool) : Prop :=
  ∃ τ', AgreeUnmasked isGateVar τ' τ ∧ t.sat τ' = true

section

variable {K : Klay} {isGateVar : List Bool} {σ τ : Nat → Bool}

/-- The unit literals are no variables of `d`, so that masked ones can be set to hold. -/
theorem satisfiable_manageBranch {e : DataBranch CallTree} {s : Finset Nat} (hp : e.Partitions s)
    (hd : DependsOn e.d.sat (s : Set Nat))
    (hunits : ∀ l ∈ e.unitLits, isMasked isGateVar l.var = false → l.holds τ = true)
    (h : Satisfiable isGateVar e.d τ) : Satisfiable isGateVar (.manageBranch e) τ := by
  obtain ⟨τ₁, hagree, hsat⟩ := h
  obtain ⟨τ', hsame, hholds⟩ := CallTree.exists_unitsHold hp τ₁
  refine ⟨τ', fun v hm => ?_, ?_⟩
  · by_cases hv : v ∈ e.unitLits.map Lit.var
    · obtain ⟨l, hl, rfl⟩ := List.mem_map.mp hv
      have htrue : τ' l.var = !l.sign := by
        simpa [Lit.holds] using List.all_eq_true.mp hholds l hl
      have hgiven : τ l.var = !l.sign := by simpa [Lit.holds] using hunits l hl hm
      rw [htrue, hgiven]
    · rw [hsame v hv, hagree v hm]
  · have hrest : e.d.sat τ' = e.d.sat τ₁ := by
      refine hd fun v hv => hsame v fun hu => ?_
      exact hp.2 v (List.mem_append_left _ hu) (Finset.mem_coe.mp hv)
    rw [CallTree.sat_manageBranch, hholds, hrest, hsat]
    rfl

/-- The parts share no masked variable, so that their values can be chosen apart. -/
theorem satisfiable_manageDecomposableAnd {ts : List CallTree} {sc : CallTree → Finset Nat}
    (hp : ts.Pairwise fun t u => Disjoint (sc t) (sc u))
    (hs : ∀ t ∈ ts, DependsOn t.sat (sc t : Set Nat))
    (h : ∀ t ∈ ts, Satisfiable isGateVar t τ) :
    Satisfiable isGateVar (.manageDecomposableAnd ts) τ := by
  choose! f hf using h
  obtain ⟨τ₁, hτ₁⟩ := exists_glue f hp
  refine ⟨fun v => if isMasked isGateVar v then τ₁ v else τ v, fun v hm => ?_, ?_⟩
  · simp [hm]
  · rw [CallTree.sat_manageDecomposableAnd, List.all_eq_true]
    intro t ht
    obtain ⟨hagree, hsat⟩ := hf t ht
    refine (hs t ht fun v hv => ?_).trans hsat
    cases hm : isMasked isGateVar v with
    | true => simpa [hm] using hτ₁ t ht v (Finset.mem_coe.mp hv)
    | false => simpa [hm] using (hagree v hm).symm

theorem dependsOn_mentioned (t : CallTree) :
    DependsOn t.sat (t.mentioned.toFinset : Set Nat) :=
  fun _ _ h => t.sat_mentioned fun v hv => h v (by simpa using hv)

theorem satisfiable_branch {e : DataBranch CallTree}
    (hp : e.Partitions e.d.mentioned.toFinset) :
    Satisfiable isGateVar (.manageBranch e) τ ↔
      (∀ l ∈ e.unitLits, isMasked isGateVar l.var = false → l.holds τ = true) ∧
        Satisfiable isGateVar e.d τ := by
  constructor
  · rintro ⟨τ', hagree, hsat⟩
    rw [CallTree.sat_manageBranch, Bool.and_eq_true] at hsat
    refine ⟨fun l hl hm => ?_, τ', hagree, hsat.2⟩
    have hholds := List.all_eq_true.mp hsat.1 l hl
    rwa [Lit.holds, hagree l.var hm] at hholds
  · rintro ⟨hunits, h⟩
    exact satisfiable_manageBranch hp (dependsOn_mentioned e.d) hunits h

theorem satisfiable_or {es : List (DataBranch CallTree)} :
    Satisfiable isGateVar (.manageDeterministOr es) τ ↔
      ∃ e ∈ es, Satisfiable isGateVar (.manageBranch e) τ := by
  constructor
  · rintro ⟨τ', hagree, hsat⟩
    rw [CallTree.sat_manageDeterministOr, List.any_eq_true] at hsat
    obtain ⟨e, he, hsat⟩ := hsat
    exact ⟨e, he, τ', hagree, hsat⟩
  · rintro ⟨e, he, τ', hagree, hsat⟩
    refine ⟨τ', hagree, ?_⟩
    rw [CallTree.sat_manageDeterministOr]
    exact List.any_eq_true.mpr ⟨e, he, hsat⟩

theorem satisfiable_and {ts : List CallTree}
    (hp : ts.Pairwise fun t u => Disjoint t.mentioned.toFinset u.mentioned.toFinset) :
    Satisfiable isGateVar (.manageDecomposableAnd ts) τ ↔
      ∀ t ∈ ts, Satisfiable isGateVar t τ := by
  constructor
  · rintro ⟨τ', hagree, hsat⟩ t ht
    rw [CallTree.sat_manageDecomposableAnd, List.all_eq_true] at hsat
    exact ⟨τ', hagree, hsat t ht⟩
  · exact satisfiable_manageDecomposableAnd hp fun t _ => dependsOn_mentioned t

theorem denote_maskedLit (hK : K.Evaluates (Node.boolean σ) (literalHolds τ)) {l : Lit}
    (h0 : l.var ≠ 0) :
    (if isMasked isGateVar l.var then K.trueNode else makeLiteralNode K l).denote σ = true ↔
      (isMasked isGateVar l.var = false → l.holds τ = true) := by
  cases hm : isMasked isGateVar l.var with
  | true => simp [denote_trueNode hK]
  | false =>
    have hlit : literalHolds τ (d4LitToDimacs l) = l.holds τ := by
      unfold literalHolds d4LitToDimacs Lit.holds
      cases l.sign with
      | true => simp [h0]
      | false => simp
    simp [makeLiteralNode, denote_literal hK, hlit]

theorem denote_makeTautology (hK : K.Evaluates (Node.boolean σ) (literalHolds τ)) {v : Nat}
    (h0 : v ≠ 0) : (makeTautology K v).denote σ = true := by
  have hneg : ¬ 0 ≤ -(v : Int) := by omega
  have hpos : 0 ≤ (v : Int) := by omega
  rw [makeTautology, denote_or hK]
  simp only [List.any_cons, List.any_nil, denote_literal hK, literalHolds, Int.natAbs_natCast,
    Int.natAbs_neg, hneg, hpos]
  cases τ v <;> rfl

theorem denote_wrapBranch (hK : K.Evaluates (Node.boolean σ) (literalHolds τ))
    {b : DataBranch Node} (h0 : ∀ v ∈ b.ownVars, v ≠ 0) :
    (wrapBranch K isGateVar b).denote σ = true ↔
      (∀ l ∈ b.unitLits, isMasked isGateVar l.var = false → l.holds τ = true) ∧
        b.d.denote σ = true := by
  have hunit : ∀ l ∈ b.unitLits, l.var ≠ 0 := fun l hl =>
    h0 l.var (List.mem_append_left _ (List.mem_map_of_mem hl))
  have htaut : ∀ v ∈ b.freeVars, (makeTautology K v).denote σ = true := fun v hv =>
    denote_makeTautology hK (h0 v (List.mem_append_right _ hv))
  rw [wrapBranch_eq, denote_and hK, List.all_append, List.all_append, Bool.and_eq_true,
    Bool.and_eq_true]
  have hlits : ((b.unitLits.map fun l =>
      if isMasked isGateVar l.var then K.trueNode else makeLiteralNode K l).all
        fun n => n.denote σ) = true ↔
      ∀ l ∈ b.unitLits, isMasked isGateVar l.var = false → l.holds τ = true := by
    rw [List.all_map, List.all_eq_true]
    exact forall₂_congr fun l hl => denote_maskedLit hK (hunit l hl)
  have htauts : (((b.freeVars.filter fun v => !isMasked isGateVar v).map (makeTautology K)).all
      fun n => n.denote σ) = true := by
    rw [List.all_map, List.all_eq_true]
    exact fun v hv => htaut v (List.mem_of_mem_filter hv)
  rw [hlits, htauts]
  simp

theorem denote_manageDeterministOr (hK : K.Evaluates (Node.boolean σ) (literalHolds τ))
    (elts : List (DataBranch Node)) :
    ((klayCircuitOperation K isGateVar).manageDeterministOr elts).denote σ =
      elts.any fun b => (wrapBranch K isGateVar b).denote σ := by
  unfold klayCircuitOperation
  dsimp only
  split
  next => simp
  next => rw [denote_or hK, List.any_map]; rfl

theorem denote_manageDecomposableAnd (hK : K.Evaluates (Node.boolean σ) (literalHolds τ))
    (elts : List Node) :
    ((klayCircuitOperation K isGateVar).manageDecomposableAnd elts).denote σ =
      elts.all fun n => n.denote σ := by
  have hfilter : (elts.all fun n => n.denote σ) =
      (elts.filter fun n => !n.isTrue).all fun n => n.denote σ := by
    induction elts with
    | nil => rfl
    | cons n ns ih =>
      cases hn : n.isTrue with
      | true =>
        have htrue : n.denote σ = true := Node.read_true _ hn
        simp [hn, htrue, ih]
      | false => simp [hn, ih]
  rw [hfilter]
  unfold klayCircuitOperation
  dsimp only
  split
  next h => simp [h, denote_trueNode hK]
  next h => simp [h]
  next => exact denote_and hK _

theorem denote_branch (hK : K.Evaluates (Node.boolean σ) (literalHolds τ))
    {e : DataBranch CallTree} (hp : e.Partitions e.d.mentioned.toFinset)
    (h0 : 0 ∉ (CallTree.manageBranch e).mentioned)
    (ih : (e.d.run (klayCircuitOperation K isGateVar)).denote σ = true ↔
      Satisfiable isGateVar e.d τ) :
    (wrapBranch K isGateVar (CallTree.runBranch (klayCircuitOperation K isGateVar) e)).denote σ =
      true ↔ Satisfiable isGateVar (.manageBranch e) τ := by
  have hown : ∀ v ∈ (CallTree.runBranch (klayCircuitOperation K isGateVar) e).ownVars, v ≠ 0 := by
    intro v hv h
    rw [DataBranch.ownVars, CallTree.runBranch_unitLits, CallTree.runBranch_freeVars] at hv
    apply h0
    rw [CallTree.mentioned_manageBranch]
    exact List.mem_append_left _ (h ▸ hv)
  rw [denote_wrapBranch hK hown, satisfiable_branch hp, CallTree.runBranch_unitLits,
    CallTree.runBranch_d, ih]

/-- The circuit is true where values of the masked variables can be found for the run. -/
theorem denote_masked (hK : K.Evaluates (Node.boolean σ) (literalHolds τ)) {t : CallTree}
    (ht : t.Disjointed) (h0 : 0 ∉ t.mentioned) :
    (t.run (klayCircuitOperation K isGateVar)).denote σ = true ↔ Satisfiable isGateVar t τ := by
  have hagree : AgreeUnmasked isGateVar τ τ := fun _ _ => rfl
  have hbottom : ∀ n : Node, n.denote σ = false → ∀ t : CallTree, (∀ τ', t.sat τ' = false) →
      (n.denote σ = true ↔ Satisfiable isGateVar t τ) := by
    intro n hn t ht
    rw [hn]
    refine iff_of_false (by simp) ?_
    rintro ⟨τ', -, hsat⟩
    rw [ht τ'] at hsat
    cases hsat
  induction ht with
  | createTop => exact iff_of_true (denote_trueNode hK) ⟨τ, hagree, rfl⟩
  | createBottom => exact hbottom _ (denote_falseNode hK) _ fun _ => rfl
  | manageBottom => exact hbottom _ (denote_falseNode hK) _ fun _ => rfl
  | manageTop vs => exact iff_of_true (denote_trueNode hK) ⟨τ, hagree, rfl⟩
  | @manageBranch e hp _ ih =>
    refine denote_branch hK hp h0 (ih fun h => h0 ?_)
    rw [CallTree.mentioned_manageBranch]
    exact List.mem_append_right _ h
  | @manageDeterministOr es h ih =>
    rw [CallTree.run_manageDeterministOr, denote_manageDeterministOr hK, List.any_map,
      List.any_eq_true, satisfiable_or]
    refine exists_congr fun e => and_congr_right fun he => ih e he fun h => h0 ?_
    rw [CallTree.mentioned_manageDeterministOr]
    exact List.mem_flatMap.mpr ⟨e, he, h⟩
  | @manageDecomposableAnd ts hp h ih =>
    rw [CallTree.run_manageDecomposableAnd, denote_manageDecomposableAnd hK, List.all_map,
      List.all_eq_true, satisfiable_and hp]
    refine forall₂_congr fun t ht => ih t ht fun h => h0 ?_
    rw [CallTree.mentioned_manageDecomposableAnd]
    exact List.mem_flatMap.mpr ⟨t, ht, h⟩

/-- Masking quantifies the masked variables existentially: the circuit has no literal of them,
and is true where some values of theirs make the run true. Variables are numbered from 1. -/
theorem masking_quantifies (hL : K.KeepsLeaves)
    (hnum : ∀ l m, K.internalVal l / 2 = K.internalVal m / 2 ↔ l.natAbs = m.natAbs)
    (isGateVar : List Bool) {t : CallTree} (ht : t.Disjointed) (h0 : 0 ∉ t.mentioned) :
    let n := t.run (klayCircuitOperation K isGateVar)
    (∀ ix ∈ n.leaves, ∀ l : Int, isMasked isGateVar l.natAbs = true →
      ix / 2 ≠ K.internalVal l / 2) ∧
    ∀ σ τ, K.Evaluates (Node.boolean σ) (literalHolds τ) →
      (n.denote σ = true ↔
        ∃ τ', (∀ v, isMasked isGateVar v = false → τ' v = τ v) ∧ t.sat τ' = true) := by
  refine ⟨fun ix hix l hm hdiv => ?_, fun σ τ hK => denote_masked hK ht h0⟩
  obtain ⟨v, -, hunmasked, hv⟩ := leaves_run hL t hix
  have habs : v = l.natAbs := by
    rcases hv with rfl | rfl
    · exact (hnum v l).mp hdiv
    · have hneg := (hnum (-(v : Int)) l).mp hdiv
      rwa [Int.natAbs_neg] at hneg
  rw [habs, hm] at hunmasked
  cases hunmasked

end

/-- A branch on the masked variable 2, and 1 or 3 with it, beside a part that fixes 4. -/
def maskedRun : CallTree :=
  .manageDecomposableAnd
    [.manageDeterministOr [⟨.createTop, [⟨2, false⟩, ⟨1, false⟩], [3]⟩,
      ⟨.manageTop [1], [⟨2, true⟩, ⟨3, true⟩], []⟩],
     .manageBranch ⟨.createTop, [⟨4, true⟩], [5]⟩]

theorem maskedRun_disjointed : maskedRun.Disjointed := by
  refine .manageDecomposableAnd (by decide) ?_
  rw [List.forall_mem_cons, List.forall_mem_singleton]
  refine ⟨.manageDeterministOr ?_, .manageBranch ⟨by decide, by decide⟩ .createTop⟩
  rw [List.forall_mem_cons, List.forall_mem_singleton]
  exact ⟨.manageBranch ⟨by decide, by decide⟩ .createTop,
    .manageBranch ⟨by decide, by decide⟩ (.manageTop [1])⟩

def maskTwoAndFour : List Bool := [false, false, true, false, true, false]

theorem maskedRun_quantified :
    let n := maskedRun.run (klayCircuitOperation Klay.reference maskTwoAndFour)
    (∀ ix ∈ n.leaves, ∀ l : Int, isMasked maskTwoAndFour l.natAbs = true →
      ix / 2 ≠ Klay.reference.internalVal l / 2) ∧
    ∀ σ τ, Klay.reference.Evaluates (Node.boolean σ) (literalHolds τ) →
      (n.denote σ = true ↔
        ∃ τ', (∀ v, isMasked maskTwoAndFour v = false → τ' v = τ v) ∧
          maskedRun.sat τ' = true) :=
  masking_quantifies Klay.reference_simplifies.keepsLeaves
    Klay.reference_simplifies.internalVal maskTwoAndFour maskedRun_disjointed (by decide)

end Kompyle
