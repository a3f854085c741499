import Kompyle.CircuitOperation
import Kompyle.KlayReference

namespace Kompyle

open WeightedCount

open Klay

section

variable (K : Klay) (isGateVar : List Bool)

def Klay.varIx (v : Nat) : Nat := K.internalVal v / 2

/-- The unmasked variables of a scope, by leaf index without the polarity bit. -/
def visible (s : Finset Nat) : Finset Nat :=
  (s.filter fun v => isMasked isGateVar v = false).image K.varIx

def Mentions (n : Node) (s : Finset Nat) : Prop :=
  n.Structured ∧ (n.isFalse = true ∨ n.vars = visible K isGateVar s)

end

variable {K : Klay} {isGateVar : List Bool}

theorem mem_visible {s : Finset Nat} {i : Nat} :
    i ∈ visible K isGateVar s ↔ ∃ v ∈ s, isMasked isGateVar v = false ∧ K.varIx v = i := by
  simp only [visible, Finset.mem_image, Finset.mem_filter, and_assoc]

theorem visible_disjoint (hK : K.Simplifies) {s t : Finset Nat} (h : Disjoint s t) :
    Disjoint (visible K isGateVar s) (visible K isGateVar t) := by
  refine Finset.disjoint_left.mpr fun i hs ht => ?_
  obtain ⟨v, hv, -, rfl⟩ := mem_visible.mp hs
  obtain ⟨u, hu, -, he⟩ := mem_visible.mp ht
  have huv : u = v := by simpa [Klay.varIx] using (hK.internalVal u v).mp he
  exact Finset.disjoint_left.mp h hv (huv ▸ hu)

theorem mentions_and (hK : K.Simplifies) {ps : List (Node × Finset Nat)} {n : Node}
    (h : AndOf (ps.map Prod.fst) n) (hm : ∀ p ∈ ps, Mentions K isGateVar p.1 p.2)
    (hdisj : ps.Pairwise fun p q => Disjoint p.2 q.2) :
    Mentions K isGateVar n (unions (ps.map Prod.snd)) := by
  have hsub : ∀ p ∈ ps, p.1.vars ⊆ visible K isGateVar p.2 := by
    intro p hp
    rcases (hm p hp).2 with hf | hv
    · simp [Node.vars, Node.leaves, Node.read_false _ hf, Node.leafReading]
    · rw [hv]
  have hnodes : (ps.map Prod.fst).Pairwise fun c d => Disjoint c.vars d.vars := by
    refine List.pairwise_map.mpr (hdisj.imp_of_mem fun hp hq hpq => ?_)
    exact (visible_disjoint hK hpq).mono (hsub _ hp) (hsub _ hq)
  have hstruct : ∀ x ∈ ps.map Prod.fst, x.Structured := by
    intro x hx
    obtain ⟨p, hp, rfl⟩ := List.mem_map.mp hx
    exact (hm p hp).1
  obtain ⟨hn, hv⟩ := andOf_structured h hstruct hnodes
  refine ⟨hn, ?_⟩
  rcases hv with hf | ⟨hnf, hvars⟩
  · exact Or.inl hf
  right
  rw [hvars]
  ext i
  simp only [mem_unions, mem_visible, List.mem_map]
  constructor
  · rintro ⟨_, ⟨_, ⟨p, hp, rfl⟩, rfl⟩, hi⟩
    obtain ⟨v, hvs, hmask, hix⟩ := mem_visible.mp (hsub p hp hi)
    exact ⟨v, ⟨_, ⟨p, hp, rfl⟩, hvs⟩, hmask, hix⟩
  · rintro ⟨v, ⟨_, ⟨p, hp, rfl⟩, hvs⟩, hmask, hix⟩
    have hpf : p.1.isFalse = false := hnf p.1 (List.mem_map_of_mem hp)
    have hpv := (hm p hp).2.resolve_left (by simp [hpf])
    exact ⟨_, ⟨_, ⟨p, hp, rfl⟩, rfl⟩, hpv ▸ mem_visible.mpr ⟨v, hvs, hmask, hix⟩⟩

theorem mentions_literal (hK : K.Simplifies) (l : Int) :
    (K.literalNode l).Structured ∧ (K.literalNode l).vars = {K.varIx l.natAbs} := by
  obtain ⟨htype, hix⟩ := hK.literalNode l
  refine ⟨Node.structured_leaf (by simp [htype]) (by simp [htype]), ?_⟩
  rw [Node.vars_leaf htype, hix, Klay.varIx, (hK.internalVal l l.natAbs).mpr (by omega)]

theorem natAbs_d4LitToDimacs (l : Lit) : (d4LitToDimacs l).natAbs = l.var := by
  unfold d4LitToDimacs
  split <;> simp

theorem visible_single {v : Nat} (h : isMasked isGateVar v = false) :
    visible K isGateVar {v} = {K.varIx v} := by
  simp [visible, Finset.filter_singleton, h]

theorem mentions_true (hK : K.Simplifies) {s : Finset Nat}
    (hs : ∀ v ∈ s, isMasked isGateVar v = true) : Mentions K isGateVar K.trueNode s := by
  refine ⟨Node.structured_constant (Or.inl hK.trueNode), Or.inr ?_⟩
  rw [Node.vars_true hK.trueNode]
  symm
  refine Finset.eq_empty_of_forall_notMem fun i hi => ?_
  obtain ⟨v, hv, hm, -⟩ := mem_visible.mp hi
  simp [hs v hv] at hm

theorem mentions_unit (hK : K.Simplifies) (l : Lit) :
    Mentions K isGateVar
      (if isMasked isGateVar l.var then K.trueNode else makeLiteralNode K l) {l.var} := by
  split
  next hm => exact mentions_true hK (by simpa using hm)
  next hm =>
    obtain ⟨hs, hv⟩ := mentions_literal hK (d4LitToDimacs l)
    refine ⟨hs, Or.inr ?_⟩
    rw [makeLiteralNode, hv, natAbs_d4LitToDimacs, visible_single (by simpa using hm)]

theorem mentions_tautology (hK : K.Simplifies) {v : Nat} (hm : isMasked isGateVar v = false) :
    Mentions K isGateVar (makeTautology K v) {v} := by
  have hlit : ∀ x ∈ [K.literalNode v, K.literalNode (-(v : Int))],
      x.Structured ∧ x.vars = {K.varIx v} := by
    intro x hx
    rcases List.mem_pair.mp hx with rfl | rfl
    · simpa using mentions_literal hK v
    · simpa using mentions_literal hK (-(v : Int))
  rw [Mentions, visible_single hm]
  exact orOf_structured (hK.orNode _) (fun x hx => (hlit x hx).1)
    fun x hx => Or.inr (hlit x hx).2

/-- The nodes under the and of a branch, with the scope of each. -/
def branchParts (K : Klay) (isGateVar : List Bool) (b : DataBranch Node) (s : Finset Nat) :
    List (Node × Finset Nat) :=
  (b.unitLits.map fun l =>
      ((if isMasked isGateVar l.var then K.trueNode else makeLiteralNode K l), {l.var})) ++
    [(b.d, s)] ++
    (b.freeVars.filter fun v => !isMasked isGateVar v).map fun v => (makeTautology K v, {v})

theorem andOf_branchParts (hK : K.Simplifies) (b : DataBranch Node) (s : Finset Nat) :
    AndOf ((branchParts K isGateVar b s).map Prod.fst) (wrapBranch K isGateVar b) := by
  have h := hK.andNode (b.unitLits.map (fun l =>
    if isMasked isGateVar l.var then K.trueNode else makeLiteralNode K l) ++ [b.d] ++
    (b.freeVars.filter fun v => !isMasked isGateVar v).map (makeTautology K))
  rw [← wrapBranch_eq] at h
  simpa [branchParts, Function.comp_def] using h

theorem mentions_branchParts (hK : K.Simplifies) {b : DataBranch Node} {s : Finset Nat}
    (hd : Mentions K isGateVar b.d s) :
    ∀ p ∈ branchParts K isGateVar b s, Mentions K isGateVar p.1 p.2 := by
  intro p hp
  rcases List.mem_append.mp hp with hp | hp
  · rcases List.mem_append.mp hp with hp | hp
    · obtain ⟨l, -, rfl⟩ := List.mem_map.mp hp
      exact mentions_unit hK l
    · rw [List.mem_singleton.mp hp]
      exact hd
  · obtain ⟨v, hv, rfl⟩ := List.mem_map.mp hp
    exact mentions_tautology hK (by simpa using (List.mem_filter.mp hv).2)

theorem disjoint_branchParts {b : DataBranch Node} {s : Finset Nat} (hp : b.Partitions s) :
    (branchParts K isGateVar b s).Pairwise fun p q => Disjoint p.2 q.2 := by
  obtain ⟨hnodup, hout⟩ := hp
  obtain ⟨hnu, hnf, huf⟩ := List.nodup_append.mp hnodup
  refine List.pairwise_append.mpr ⟨List.pairwise_append.mpr ⟨?_, by simp, ?_⟩, ?_, ?_⟩
  · refine List.pairwise_map.mpr ((List.pairwise_map.mp hnu).imp fun h => ?_)
    simpa using h
  · intro p hp q hq
    obtain ⟨l, hl, rfl⟩ := List.mem_map.mp hp
    rw [List.mem_singleton.mp hq]
    have hv := hout l.var (List.mem_append_left _ (List.mem_map_of_mem hl))
    simpa using hv
  · refine List.pairwise_map.mpr ((hnf.filter _).imp fun h => ?_)
    simpa using h
  · intro p hp q hq
    obtain ⟨v, hv, rfl⟩ := List.mem_map.mp hq
    have hvf := List.mem_of_mem_filter hv
    rcases List.mem_append.mp hp with hp | hp
    · obtain ⟨l, hl, rfl⟩ := List.mem_map.mp hp
      simpa using huf l.var (List.mem_map_of_mem hl) v hvf
    · rw [List.mem_singleton.mp hp]
      simpa using hout v (List.mem_append_right _ hvf)

theorem visible_branchParts (b : DataBranch Node) (s : Finset Nat) :
    visible K isGateVar (unions ((branchParts K isGateVar b s).map Prod.snd)) =
      visible K isGateVar (b.scope s) := by
  have hunions : unions ((branchParts K isGateVar b s).map Prod.snd) =
      (b.unitLits.map Lit.var).toFinset ∪ s ∪
        (b.freeVars.filter fun v => !isMasked isGateVar v).toFinset := by
    have hu := unions_singletons Lit.var b.unitLits
    have ht := unions_singletons id (b.freeVars.filter fun v => !isMasked isGateVar v)
    have hs : unions [s] = s := by simp [unions]
    simp only [List.map_id, id] at ht
    simp only [branchParts, List.map_append, List.map_cons, List.map_nil, List.map_map,
      unions_append, Function.comp_def, hu, ht, hs]
  refine congrArg (Finset.image K.varIx) (Finset.ext fun v => ?_)
  simp only [hunions, DataBranch.scope, DataBranch.ownVars, List.toFinset_append,
    Finset.mem_filter, Finset.mem_union, List.mem_toFinset, List.mem_filter,
    Bool.not_eq_true']
  tauto

theorem mentions_wrapBranch (hK : K.Simplifies) {b : DataBranch Node} {s : Finset Nat}
    (hp : b.Partitions s) (hd : Mentions K isGateVar b.d s) :
    Mentions K isGateVar (wrapBranch K isGateVar b) (b.scope s) := by
  rw [Mentions, ← visible_branchParts]
  exact mentions_and hK (andOf_branchParts hK b s) (mentions_branchParts hK hd)
    (disjoint_branchParts hp)

theorem andOf_manage (hK : K.Simplifies) (elts : List Node) :
    AndOf elts ((klayCircuitOperation K isGateVar).manageDecomposableAnd elts) := by
  refine andOf_filter ?_
  unfold klayCircuitOperation
  dsimp only
  split
  next h => rw [h]; exact Or.inr ⟨by simp, Or.inl ⟨by simp, hK.trueNode⟩⟩
  next part h => rw [h]; exact andOf_single part
  next => exact hK.andNode _

theorem orOf_manage (hK : K.Simplifies) (elts : List (DataBranch Node)) :
    OrOf (elts.map (wrapBranch K isGateVar))
      ((klayCircuitOperation K isGateVar).manageDeterministOr elts) := by
  unfold klayCircuitOperation
  dsimp only
  split
  next e => exact orOf_single _
  next => exact hK.orNode _

theorem wrapBranch_false (hK : K.Simplifies) {b : DataBranch Node} (h : b.d.isFalse = true) :
    (wrapBranch K isGateVar b).isFalse = true := by
  rw [wrapBranch_eq]
  exact andOf_false (hK.andNode _) (by simp) h

theorem run_isBottom (hK : K.Simplifies) {t : CallTree} (h : t.isBottom = true) :
    (t.run (klayCircuitOperation K isGateVar)).isFalse = true := by
  induction t with
  | createTop => simp [CallTree.isBottom, bottomOperation] at h
  | createBottom => exact hK.falseNode
  | manageBottom => exact hK.falseNode
  | manageTop vs => simp [CallTree.isBottom, bottomOperation] at h
  | manageBranch e ih =>
    exact wrapBranch_false hK (by rw [CallTree.runBranch_d]; exact ih (by simpa using h))
  | manageDeterministOr es ih =>
    rw [CallTree.run_manageDeterministOr]
    refine orOf_false (orOf_manage hK _) fun x hx => ?_
    obtain ⟨b, hb, rfl⟩ := List.mem_map.mp hx
    obtain ⟨e, he, rfl⟩ := List.mem_map.mp hb
    refine wrapBranch_false hK ?_
    rw [CallTree.runBranch_d]
    exact ih e he (CallTree.isBottom_branch h he)
  | manageDecomposableAnd ts ih =>
    obtain ⟨t, ht, hb⟩ := CallTree.isBottom_and.mp h
    rw [CallTree.run_manageDecomposableAnd]
    exact andOf_false (andOf_manage hK _) (List.mem_map_of_mem ht) (ih t ht hb)

theorem mentions_false {n : Node} (h : n.isFalse = true) (s : Finset Nat) :
    Mentions K isGateVar n s := ⟨Node.structured_constant (Or.inr h), Or.inl h⟩

theorem mentions_branch (hK : K.Simplifies) {e : DataBranch CallTree} {s : Finset Nat}
    (hp : e.Partitions s)
    (hd : Mentions K isGateVar (e.d.run (klayCircuitOperation K isGateVar)) s) :
    Mentions K isGateVar (wrapBranch K isGateVar
      (CallTree.runBranch (klayCircuitOperation K isGateVar) e)) (e.scope s) := by
  have h := mentions_wrapBranch (b := CallTree.runBranch (klayCircuitOperation K isGateVar) e) hK
    ((CallTree.runBranch_partitions _ e s).mpr hp) (by rw [CallTree.runBranch_d]; exact hd)
  rwa [CallTree.runBranch_scope] at h

theorem mentions_deterministOr (hK : K.Simplifies) {es : List (DataBranch CallTree)}
    {s : Finset Nat} (h : ∀ e ∈ es, Mentions K isGateVar (wrapBranch K isGateVar
      (CallTree.runBranch (klayCircuitOperation K isGateVar) e)) s) :
    Mentions K isGateVar
      ((CallTree.manageDeterministOr es).run (klayCircuitOperation K isGateVar)) s := by
  have hm : ∀ x ∈ (es.map (CallTree.runBranch (klayCircuitOperation K isGateVar))).map
      (wrapBranch K isGateVar), Mentions K isGateVar x s := by
    intro x hx
    rw [List.map_map] at hx
    obtain ⟨e, he, rfl⟩ := List.mem_map.mp hx
    exact h e he
  rw [CallTree.run_manageDeterministOr]
  exact orOf_structured (orOf_manage hK _) (fun x hx => (hm x hx).1) fun x hx => (hm x hx).2

theorem mentions_decomposableAnd (hK : K.Simplifies) {ts : List CallTree}
    {sc : CallTree → Finset Nat} (hp : ts.Pairwise fun t u => Disjoint (sc t) (sc u))
    (h : ∀ t ∈ ts, Mentions K isGateVar (t.run (klayCircuitOperation K isGateVar)) (sc t)) :
    Mentions K isGateVar
      ((CallTree.manageDecomposableAnd ts).run (klayCircuitOperation K isGateVar))
      (unions (ts.map sc)) := by
  let ps := ts.map fun t => (t.run (klayCircuitOperation K isGateVar), sc t)
  have hfst : ps.map Prod.fst = ts.map (CallTree.run (klayCircuitOperation K isGateVar)) := by
    simp [ps, Function.comp_def]
  have hsnd : ps.map Prod.snd = ts.map sc := by simp [ps, Function.comp_def]
  have hand : AndOf (ps.map Prod.fst)
      ((CallTree.manageDecomposableAnd ts).run (klayCircuitOperation K isGateVar)) := by
    rw [CallTree.run_manageDecomposableAnd, hfst]
    exact andOf_manage hK _
  have hm : ∀ p ∈ ps, Mentions K isGateVar p.1 p.2 := by
    intro p hp
    obtain ⟨t, ht, rfl⟩ := List.mem_map.mp hp
    exact h t ht
  have hmentions := mentions_and hK hand hm (List.pairwise_map.mpr hp)
  rwa [hsnd] at hmentions

/-- Every node a run returns is False or mentions the unmasked variables of its scope, and the
circuit below it is decomposable and smooth. -/
theorem klayCircuit_structured (hK : K.Simplifies) {t : CallTree} {s : Finset Nat}
    (hs : t.HasScope s) (htop : t.PlainTops) :
    let n := t.run (klayCircuitOperation K isGateVar)
    n.Decomposable ∧ n.Smooth ∧ (n.isFalse = true ∨ n.vars = visible K isGateVar s) := by
  suffices h : Mentions K isGateVar (t.run (klayCircuitOperation K isGateVar)) s from
    ⟨h.1.1, h.1.2, h.2⟩
  induction hs with
  | bottom h => exact mentions_false (run_isBottom hK h) _
  | createTop => exact mentions_true hK (by simp)
  | @manageTop vs h =>
    have hvs : vs = [] := CallTree.live_top (T := (· = [])) htop
    subst hvs
    exact mentions_true hK (by simp)
  | @manageBranch e s hp hd ih =>
    cases hb : e.d.isBottom with
    | true => exact mentions_false (run_isBottom hK (by simpa using hb)) _
    | false => exact mentions_branch hK hp (ih (CallTree.live_branch htop hb).2)
  | @manageDeterministOr es s sc hp hd ih =>
    refine mentions_deterministOr hK fun e he => ?_
    cases hb : e.d.isBottom with
    | true =>
      refine mentions_false (wrapBranch_false hK ?_) s
      rw [CallTree.runBranch_d]
      exact run_isBottom hK hb
    | false =>
      have hlive := CallTree.mem_liveBranches.mpr ⟨he, hb⟩
      obtain ⟨hpart, hscope⟩ := hp e hlive
      rw [← hscope]
      exact mentions_branch hK hpart (ih e hlive
        ((CallTree.live_or htop (List.ne_nil_of_mem hlive)).2 e hlive).2)
  | @manageDecomposableAnd ts sc hp h ih =>
    cases hb : (CallTree.manageDecomposableAnd ts).isBottom with
    | true => exact mentions_false (run_isBottom hK hb) _
    | false =>
      exact mentions_decomposableAnd hK hp fun t ht => ih t ht (CallTree.live_and htop hb t ht)

/-- With `x2` masked, only `x1` is left in the circuit of the clause. -/
theorem clauseRun_structured :
    let n := CallTree.clauseRun.run (klayCircuitOperation Klay.reference [true, false, true])
    n.Decomposable ∧ n.Smooth ∧ (n.isFalse = true ∨
      n.vars = visible Klay.reference [true, false, true] {1, 2}) ∧
      visible Klay.reference [true, false, true] {1, 2} = {1} := by
  obtain ⟨hd, hs, hv⟩ := klayCircuit_structured (K := Klay.reference)
    Klay.reference_simplifies CallTree.clauseRun_hasScope CallTree.clauseRun_plainTops
  exact ⟨hd, hs, hv, by decide⟩

end Kompyle
