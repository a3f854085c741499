import Kompyle.CircuitOperation

namespace Kompyle

open WeightedCount

def mentionOperation : Operation (List Nat) where
  createTop := []
  createBottom := []
  manageBottom := []
  manageTop vs := vs
  manageBranch e := e.ownVars ++ e.d
  manageDeterministOr es := es.flatMap fun e => e.ownVars ++ e.d
  manageDecomposableAnd ts := ts.flatten

/-- The variables of the run, parts that a bottom cuts off included. -/
def CallTree.mentioned (t : CallTree) : List Nat := t.run mentionOperation

namespace CallTree

theorem mentioned_manageBranch (e : DataBranch CallTree) :
    (manageBranch e).mentioned = e.ownVars ++ e.d.mentioned := by
  simp [mentioned, mentionOperation, DataBranch.ownVars]

theorem mentioned_manageDeterministOr (es : List (DataBranch CallTree)) :
    (manageDeterministOr es).mentioned = es.flatMap fun e => (manageBranch e).mentioned := by
  simp [mentioned, mentionOperation, DataBranch.ownVars, List.flatMap_map]

theorem mentioned_manageDecomposableAnd (ts : List CallTree) :
    (manageDecomposableAnd ts).mentioned = ts.flatMap mentioned := by
  simp [mentioned, mentionOperation, List.flatMap_def]
  rfl

end CallTree

def UnmaskedLeaf (K : Klay) (isGateVar : List Bool) (vs : List Nat) (ix : Nat) : Prop :=
  ∃ v ∈ vs, isMasked isGateVar v = false ∧
    (ix = K.internalVal v ∨ ix = K.internalVal (-(v : Int)))

section

variable {K : Klay} {isGateVar : List Bool}

theorem UnmaskedLeaf.mono {vs us : List Nat} {ix : Nat} (h : UnmaskedLeaf K isGateVar vs ix)
    (hsub : vs ⊆ us) : UnmaskedLeaf K isGateVar us ix := by
  obtain ⟨v, hv, hm⟩ := h
  exact ⟨v, hsub hv, hm⟩

theorem leaves_makeTautology (hL : K.KeepsLeaves) {v ix : Nat}
    (h : ix ∈ (makeTautology K v).leaves) :
    ix = K.internalVal v ∨ ix = K.internalVal (-(v : Int)) := by
  obtain ⟨x, hx, hix⟩ := hL.orNode _ ix h
  rcases List.mem_pair.mp hx with rfl | rfl
  · exact Or.inl (Finset.mem_singleton.mp (hL.literalNode _ hix))
  · exact Or.inr (Finset.mem_singleton.mp (hL.literalNode _ hix))

theorem leaves_makeLiteralNode (hL : K.KeepsLeaves) {l : Lit} {ix : Nat}
    (h : ix ∈ (makeLiteralNode K l).leaves) :
    ix = K.internalVal l.var ∨ ix = K.internalVal (-(l.var : Int)) := by
  have hix := Finset.mem_singleton.mp (hL.literalNode _ h)
  unfold d4LitToDimacs at hix
  split at hix
  · exact Or.inr hix
  · exact Or.inl hix

theorem leaves_wrapBranch (hL : K.KeepsLeaves) {b : DataBranch Node} {ix : Nat}
    (h : ix ∈ (wrapBranch K isGateVar b).leaves) :
    UnmaskedLeaf K isGateVar b.ownVars ix ∨ ix ∈ b.d.leaves := by
  rw [wrapBranch_eq] at h
  obtain ⟨x, hx, hix⟩ := hL.andNode _ ix h
  rcases List.mem_append.mp hx with hx | hx
  · rcases List.mem_append.mp hx with hx | hx
    · obtain ⟨l, hl, rfl⟩ := List.mem_map.mp hx
      cases hm : isMasked isGateVar l.var with
      | true => simp [hm, hL.trueNode] at hix
      | false =>
        simp only [hm, Bool.false_eq_true, if_false] at hix
        have hv : l.var ∈ b.ownVars := List.mem_append_left _ (List.mem_map_of_mem hl)
        exact Or.inl ⟨l.var, hv, hm, leaves_makeLiteralNode hL hix⟩
    · rw [List.mem_singleton.mp hx] at hix
      exact Or.inr hix
  · obtain ⟨v, hv, rfl⟩ := List.mem_map.mp hx
    obtain ⟨hvf, hm⟩ := List.mem_filter.mp hv
    exact Or.inl ⟨v, List.mem_append_right _ hvf, by simpa using hm, leaves_makeTautology hL hix⟩

theorem leaves_manageDeterministOr (hL : K.KeepsLeaves) {elts : List (DataBranch Node)} {ix : Nat}
    (h : ix ∈ ((klayCircuitOperation K isGateVar).manageDeterministOr elts).leaves) :
    ∃ b ∈ elts, ix ∈ (wrapBranch K isGateVar b).leaves := by
  unfold klayCircuitOperation at h
  dsimp only at h
  split at h
  next b => exact ⟨b, List.mem_singleton_self b, h⟩
  next =>
    obtain ⟨x, hx, hix⟩ := hL.orNode _ ix h
    obtain ⟨b, hb, rfl⟩ := List.mem_map.mp hx
    exact ⟨b, hb, hix⟩

theorem leaves_manageDecomposableAnd (hL : K.KeepsLeaves) {elts : List Node} {ix : Nat}
    (h : ix ∈ ((klayCircuitOperation K isGateVar).manageDecomposableAnd elts).leaves) :
    ∃ n ∈ elts, ix ∈ n.leaves := by
  have hsub : ∀ x ∈ elts.filter fun n => !n.isTrue, x ∈ elts :=
    fun x hx => List.mem_of_mem_filter hx
  unfold klayCircuitOperation at h
  dsimp only at h
  split at h
  next => exact absurd (hL.trueNode ▸ h) (Finset.notMem_empty ix)
  next part hpart => exact ⟨part, hsub part (by simp [hpart]), h⟩
  next =>
    obtain ⟨x, hx, hix⟩ := hL.andNode _ ix h
    exact ⟨x, hsub x hx, hix⟩

theorem leaves_branch (hL : K.KeepsLeaves) {e : DataBranch CallTree} {ix : Nat}
    (ih : ix ∈ (e.d.run (klayCircuitOperation K isGateVar)).leaves →
      UnmaskedLeaf K isGateVar e.d.mentioned ix)
    (h : ix ∈ (wrapBranch K isGateVar
      (CallTree.runBranch (klayCircuitOperation K isGateVar) e)).leaves) :
    UnmaskedLeaf K isGateVar (e.ownVars ++ e.d.mentioned) ix := by
  rcases leaves_wrapBranch hL h with hown | hd
  · rw [DataBranch.ownVars, CallTree.runBranch_unitLits, CallTree.runBranch_freeVars] at hown
    exact hown.mono (List.subset_append_left _ _)
  · rw [CallTree.runBranch_d] at hd
    exact (ih hd).mono (List.subset_append_right _ _)

/-- The circuit only has literals of unmasked variables of the run. -/
theorem leaves_run (hL : K.KeepsLeaves) (t : CallTree) {ix : Nat}
    (h : ix ∈ (t.run (klayCircuitOperation K isGateVar)).leaves) :
    UnmaskedLeaf K isGateVar t.mentioned ix := by
  induction t with
  | createTop =>
    rw [CallTree.run_createTop] at h
    exact absurd (hL.trueNode ▸ h) (Finset.notMem_empty ix)
  | createBottom =>
    rw [CallTree.run_createBottom] at h
    exact absurd (hL.falseNode ▸ h) (Finset.notMem_empty ix)
  | manageBottom =>
    rw [CallTree.run_manageBottom] at h
    exact absurd (hL.falseNode ▸ h) (Finset.notMem_empty ix)
  | manageTop vs =>
    rw [CallTree.run_manageTop] at h
    exact absurd (hL.trueNode ▸ h) (Finset.notMem_empty ix)
  | manageBranch e ih =>
    rw [CallTree.mentioned_manageBranch]
    exact leaves_branch hL ih h
  | manageDeterministOr es ih =>
    rw [CallTree.run_manageDeterministOr] at h
    obtain ⟨b, hb, hix⟩ := leaves_manageDeterministOr hL h
    obtain ⟨e, he, rfl⟩ := List.mem_map.mp hb
    refine (leaves_branch hL (ih e he) hix).mono fun v hv => ?_
    rw [← CallTree.mentioned_manageBranch] at hv
    rw [CallTree.mentioned_manageDeterministOr]
    exact List.mem_flatMap.mpr ⟨e, he, hv⟩
  | manageDecomposableAnd ts ih =>
    rw [CallTree.run_manageDecomposableAnd] at h
    obtain ⟨n, hn, hix⟩ := leaves_manageDecomposableAnd hL h
    obtain ⟨t, ht, rfl⟩ := List.mem_map.mp hn
    refine (ih t ht hix).mono fun v hv => ?_
    rw [CallTree.mentioned_manageDecomposableAnd]
    exact List.mem_flatMap.mpr ⟨t, ht, hv⟩

end

end Kompyle
