import Kompyle.CircuitStructure
import Kompyle.CompileCnf
import Kompyle.CompileSdd
import Kompyle.Vtree
import Mathlib.Algebra.Ring.Rat
import Mathlib.Tactic.NormNum

namespace Kompyle

open WeightedCount

/-- No assignment makes both true. -/
def Klay.Inconsistent (K : Klay) (c d : Node) : Prop :=
  ∀ σ τ, K.Evaluates (Node.boolean σ) (literalHolds τ) →
    ¬ (c.denote σ = true ∧ d.denote σ = true)

/-- The children of an and mention disjoint variables, those of an or exclude each other. -/
structure Fit (K : Klay) (m : Node) : Prop where
  and : m.type = .And → m.children.Pairwise fun c d => Disjoint c.vars d.vars
  or : m.type = .Or → m.children.Pairwise K.Inconsistent

section

variable {K : Klay}

theorem fit_leaf {n : Node} (ha : n.type ≠ .And) (ho : n.type ≠ .Or) :
    n.EachBelow (Fit K) :=
  Node.eachBelow_leaf ⟨fun h => absurd h ha, fun h => absurd h ho⟩ ha ho

theorem fit_constant {n : Node} (h : n.isTrue = true ∨ n.isFalse = true) :
    n.EachBelow (Fit K) :=
  fit_leaf (Node.type_of_constant h).1 (Node.type_of_constant h).2

theorem fit_and {xs : List Node} {n : Node} (h : Klay.AndOf xs n)
    (hxs : ∀ x ∈ xs, x.EachBelow (Fit K))
    (hdisj : xs.Pairwise fun c d => Disjoint c.vars d.vars) : n.EachBelow (Fit K) := by
  refine Klay.eachBelow_andOf h hxs fun m ho hsub => ⟨fun ha => ?_, fun h => absurd h ho⟩
  exact Klay.pairwise_of_subperm (fun _ _ hcd => hcd.symm) (hsub ha)
    (hdisj.sublist List.filter_sublist)

theorem fit_or {xs : List Node} {n : Node} (h : Klay.OrOf xs n)
    (hxs : ∀ x ∈ xs, x.EachBelow (Fit K)) (hinc : xs.Pairwise K.Inconsistent) :
    n.EachBelow (Fit K) := by
  refine Klay.eachBelow_orOf h hxs fun m ha hsub => ⟨fun h => absurd h ha, fun ho => ?_⟩
  refine Klay.pairwise_of_subperm ?_ (hsub ho) (hinc.sublist List.filter_sublist)
  exact fun c d hcd σ τ hK hboth => hcd σ τ hK ⟨hboth.2, hboth.1⟩

end

/-- What a node of the circuit is to the node of the SDD it was built for. -/
structure Represents.{u} (K : Klay) (G : SddGraph) (t : Vtree) (id : Nat) (n : Node) : Prop where
  function : SameFunction K G id n
  leaves : ∀ ix ∈ n.leaves, ∃ v, G.Mentions id v ∧ ix / 2 = K.varIx v
  fit : n.EachBelow (Fit K)
  value : ∀ (R : Type u) [CommSemiring R] (w : Nat → R) (W : Int → R),
    K.Evaluates (Node.sumProduct w) W → (∀ v ∈ t.vars, W v + W (-(v : Int)) = 1) →
    n.value w = count (literalWeight W) t.vars fun τ => G.denote τ id

section

variable {K : Klay} {G : SddGraph} {t : Vtree} {root : Nat}

theorem dependsOn_denote {id : Nat} {s : Finset Nat} (h : ∀ v, G.Mentions id v → v ∈ s) :
    DependsOn (fun τ => G.denote τ id) (s : Set Nat) :=
  fun _ _ hs => SddGraph.denote_mentions id fun v hv => hs v (h v hv)

theorem literalWeight_normal {R : Type*} [CommSemiring R] {W : Int → R}
    (hW : ∀ v ∈ t.vars, W v + W (-(v : Int)) = 1) :
    ∀ v ∈ t.vars, literalWeight W v true + literalWeight W v false = 1 := by
  intro v hv
  simpa [literalWeight] using hW v hv

theorem count_literalHolds {R : Type*} [CommSemiring R] {W : Int → R} {l : Int}
    (hl : l.natAbs ∈ t.vars) (hW : ∀ v ∈ t.vars, W v + W (-(v : Int)) = 1) :
    count (literalWeight W) t.vars (fun τ => literalHolds τ l) = W l := by
  have hdep : DependsOn (fun τ => literalHolds τ l) (({l.natAbs} : Finset Nat) : Set Nat) := by
    intro σ τ h
    have hv : σ l.natAbs = τ l.natAbs := h l.natAbs (by simp)
    simp only [literalHolds, hv]
  rw [count_subset (Finset.singleton_subset_iff.mpr hl) hdep (literalWeight_normal hW)]
  refine (count_literal _ _ _).trans ?_
  have hsign : (if decide (0 ≤ l) = true then (l.natAbs : Int) else -(l.natAbs : Int)) = l := by
    split
    next h =>
      have hpos : 0 ≤ l := by simpa using h
      omega
    next h =>
      have hneg : ¬ 0 ≤ l := by simpa using h
      omega
  rw [literalWeight, hsign]

theorem represents_literal (hK : K.Simplifies) (hr : G.Respects t root) {id : Nat} {l : Int}
    (hnode : G.node id = .literal l) (hid : G.Below id root) :
    Represents K G t id (K.literalNode l) where
  function := sameFunction_builds.literal id l hnode
  leaves ix hix := by
    have hix' := Finset.mem_singleton.mp (hK.keepsLeaves.literalNode l hix)
    refine ⟨l.natAbs, SddGraph.mentions_literal hnode, ?_⟩
    rw [hix']
    exact (hK.internalVal l l.natAbs).mpr (Int.natAbs_natCast _).symm
  fit := by
    have htype := (hK.literalNode l).1
    exact fit_leaf (by simp [htype]) (by simp [htype])
  value R _ w W hW hnormal := by
    have hmem : l.natAbs ∈ t.vars := hr.covers _ ⟨id, l, hid, hnode, rfl⟩
    rw [value_literal hW, ← count_literalHolds hmem hnormal]
    exact congrArg _ (funext fun τ => (SddGraph.denote_literal hnode).symm)

theorem represents_true (hK : K.Simplifies) {id : Nat} (hnode : G.node id = .true) :
    Represents K G t id K.trueNode where
  function := sameFunction_builds.true id hnode
  leaves ix hix := by
    rw [hK.keepsLeaves.trueNode] at hix
    cases hix
  fit := fit_constant (Or.inl hK.trueNode)
  value R _ w W hW hnormal := by
    have htrue : (fun τ => G.denote τ id) = fun _ => true :=
      funext fun τ => SddGraph.denote_true hnode
    rw [value_trueNode hW, htrue, count_true]
    exact (Finset.prod_eq_one (literalWeight_normal hnormal)).symm

theorem represents_false (hK : K.Simplifies) {id : Nat} (hnode : G.node id = .false) :
    Represents K G t id K.falseNode where
  function := sameFunction_builds.false id hnode
  leaves ix hix := by
    rw [hK.keepsLeaves.falseNode] at hix
    cases hix
  fit := fit_constant (Or.inr hK.falseNode)
  value R _ w W hW _ := by
    have hfalse : (fun τ => G.denote τ id) = fun _ => false :=
      funext fun τ => SddGraph.denote_false hnode
    rw [value_falseNode hW, hfalse, count_false]

/-- The nodes of a prime and its sub mention disjoint variables. -/
theorem disjoint_element (hK : K.Simplifies) {left right : Vtree}
    (hdisj : Disjoint left.vars right.vars) {p s : Nat} {n m : Node}
    (hn : Represents K G t p n) (hm : Represents K G t s m)
    (hleft : ∀ v, G.Mentions p v → v ∈ left.vars)
    (hright : ∀ v, G.Mentions s v → v ∈ right.vars) : Disjoint n.vars m.vars := by
  refine Finset.disjoint_left.mpr fun i hin him => ?_
  obtain ⟨ix, hix, hdiv⟩ := Finset.mem_image.mp hin
  obtain ⟨ix', hix', hdiv'⟩ := Finset.mem_image.mp him
  obtain ⟨u, hu, hiu⟩ := hn.leaves ix hix
  obtain ⟨v, hv, hiv⟩ := hm.leaves ix' hix'
  have hsame : K.varIx u = K.varIx v := by
    rw [← hiu, ← hiv]
    exact hdiv.trans hdiv'.symm
  have huv : u = v := by simpa [Klay.varIx] using (hK.internalVal u v).mp hsame
  exact Finset.disjoint_left.mp hdisj (hleft u hu) (huv ▸ hright v hv)

/-- Over a vtree, the weighted count of a prime and its sub together is the product of theirs. -/
theorem count_element {R : Type*} [CommSemiring R] {W : Int → R} (ht : t.leaves.Nodup)
    {left right : Vtree} (hsub : (Vtree.node left right).Subtree t) {p s : Nat}
    (hleft : ∀ v, G.Mentions p v → v ∈ left.vars)
    (hright : ∀ v, G.Mentions s v → v ∈ right.vars)
    (hW : ∀ v ∈ t.vars, W v + W (-(v : Int)) = 1) :
    count (literalWeight W) t.vars (fun τ => G.denote τ p && G.denote τ s) =
      count (literalWeight W) t.vars (fun τ => G.denote τ p) *
        count (literalWeight W) t.vars fun τ => G.denote τ s := by
  have hnormal := literalWeight_normal hW
  have hinner := hsub.vars_subset
  have hl : left.vars ⊆ t.vars := (Vtree.left_subset left right).trans hinner
  have hr : right.vars ⊆ t.vars := (Vtree.right_subset left right).trans hinner
  have hp := dependsOn_denote hleft
  have hs := dependsOn_denote hright
  have hboth : DependsOn (fun τ => G.denote τ p && G.denote τ s)
      (↑(left.vars ∪ right.vars) : Set Nat) := by
    intro σ τ h
    have hps : G.denote σ p = G.denote τ p :=
      hp fun v hv => h v (Finset.mem_coe.mpr (Finset.mem_union_left _ hv))
    have hss : G.denote σ s = G.denote τ s :=
      hs fun v hv => h v (Finset.mem_coe.mpr (Finset.mem_union_right _ hv))
    simp only [hps, hss]
  rw [count_subset (Finset.union_subset hl hr) hboth hnormal, count_subset hl hp hnormal,
    count_subset hr hs hnormal]
  exact count_and (hsub.disjoint ht) hp hs

/-- The primes of a decision exclude each other, so its count is the sum of its elements'. -/
theorem count_decision {R : Type*} [CommSemiring R] {W : Int → R} (ht : t.leaves.Nodup)
    (hr : G.Respects t root) {id : Nat} {elements : List (Nat × Nat)}
    (hnode : G.node id = .decision elements) (hid : G.Below id root)
    (hW : ∀ v ∈ t.vars, W v + W (-(v : Int)) = 1) :
    count (literalWeight W) t.vars (fun τ => G.denote τ id) = (elements.map fun e =>
      count (literalWeight W) t.vars (fun τ => G.denote τ e.1) *
        count (literalWeight W) t.vars fun τ => G.denote τ e.2).sum := by
  obtain ⟨left, right, hsub, hsides⟩ := hr.split id elements hid hnode
  have hdenote : (fun τ => G.denote τ id) =
      fun τ => elements.any fun e => G.denote τ e.1 && G.denote τ e.2 :=
    funext fun τ => SddGraph.denote_decision hnode
  have hexclude : elements.Pairwise fun e e' => ∀ τ,
      (G.denote τ e.1 && G.denote τ e.2) = true →
        (G.denote τ e'.1 && G.denote τ e'.2) = false := by
    refine (hr.inconsistent id elements hid hnode).imp fun {e e'} hprimes τ htrue => ?_
    have hprime := (Bool.and_eq_true _ _ ▸ htrue).1
    have hprime' : G.denote τ e'.1 = false := by
      rw [← Bool.not_eq_true]
      exact fun h => hprimes τ ⟨hprime, h⟩
    rw [hprime', Bool.false_and]
  rw [hdenote, count_any _ _ _ _ hexclude]
  refine congrArg List.sum (List.map_congr_left fun e he => ?_)
  exact count_element ht hsub (hsides e he).1 (hsides e he).2 hW

theorem leaves_decision (hL : K.KeepsLeaves) {id : Nat} {elements : List (Nat × Nat)}
    {f : Nat → Node} (hnode : G.node id = .decision elements)
    (hf : ∀ e ∈ elements,
      (∀ ix ∈ (f e.1).leaves, ∃ v, G.Mentions e.1 v ∧ ix / 2 = K.varIx v) ∧
      ∀ ix ∈ (f e.2).leaves, ∃ v, G.Mentions e.2 v ∧ ix / 2 = K.varIx v) :
    ∀ ix ∈ (K.orNode (elements.map fun e => K.andNode [f e.1, f e.2])).leaves,
      ∃ v, G.Mentions id v ∧ ix / 2 = K.varIx v := by
  intro ix hix
  obtain ⟨x, hx, hix⟩ := hL.orNode _ ix hix
  obtain ⟨e, he, rfl⟩ := List.mem_map.mp hx
  obtain ⟨y, hy, hix⟩ := hL.andNode _ ix hix
  have hchildren := SddGraph.mem_children he
  rw [← hnode] at hchildren
  rcases List.mem_pair.mp hy with rfl | rfl
  · obtain ⟨v, hv, hdiv⟩ := (hf e he).1 ix hix
    exact ⟨v, hv.child hchildren.1, hdiv⟩
  · obtain ⟨v, hv, hdiv⟩ := (hf e he).2 ix hix
    exact ⟨v, hv.child hchildren.2, hdiv⟩

theorem inconsistent_elements {elements : List (Nat × Nat)} {f : Nat → Node}
    (hf : ∀ e ∈ elements, SameFunction K G e.1 (f e.1))
    (hinc : elements.Pairwise fun e e' =>
      ∀ τ, ¬ (G.denote τ e.1 = true ∧ G.denote τ e'.1 = true)) :
    (elements.map fun e => K.andNode [f e.1, f e.2]).Pairwise K.Inconsistent := by
  refine List.pairwise_map.mpr (hinc.imp_of_mem fun {e e'} he he' hprimes => ?_)
  intro σ τ hK ⟨htrue, htrue'⟩
  rw [denote_and hK, List.all_eq_true] at htrue htrue'
  have hprime := htrue (f e.1) List.mem_cons_self
  have hprime' := htrue' (f e'.1) List.mem_cons_self
  rw [hf e he σ τ hK] at hprime
  rw [hf e' he' σ τ hK] at hprime'
  exact hprimes τ ⟨hprime, hprime'⟩

theorem value_decision {R : Type*} [CommSemiring R] {w : Nat → R} {W : Int → R}
    (hW : K.Evaluates (Node.sumProduct w) W) (elements : List (Nat × Nat)) (f : Nat → Node) :
    (K.orNode (elements.map fun e => K.andNode [f e.1, f e.2])).value w =
      (elements.map fun e => (f e.1).value w * (f e.2).value w).sum := by
  rw [value_or hW, List.map_map]
  refine congrArg List.sum (List.map_congr_left fun e _ => ?_)
  show (K.andNode [f e.1, f e.2]).value w = _
  rw [value_and hW]
  simp

theorem represents_decision.{u} (hK : K.Simplifies) (ht : t.leaves.Nodup) (hr : G.Respects t root)
    {id : Nat} {elements : List (Nat × Nat)} {f : Nat → Node}
    (hnode : G.node id = .decision elements) (hid : G.Below id root)
    (hf : ∀ e ∈ elements, Represents.{u} K G t e.1 (f e.1) ∧ Represents.{u} K G t e.2 (f e.2)) :
    Represents.{u} K G t id (K.orNode (elements.map fun e => K.andNode [f e.1, f e.2])) := by
  obtain ⟨left, right, hsub, hsides⟩ := hr.split id elements hid hnode
  have hinc := hr.inconsistent id elements hid hnode
  have hdisj := hsub.disjoint ht
  constructor
  · apply sameFunction_builds.decision id elements f hnode
    exact fun e he => ⟨(hf e he).1.function, (hf e he).2.function⟩
  · exact leaves_decision hK.keepsLeaves hnode fun e he => ⟨(hf e he).1.leaves, (hf e he).2.leaves⟩
  · refine fit_or (hK.orNode _) ?_ (inconsistent_elements (fun e he => (hf e he).1.function) hinc)
    intro x hx
    obtain ⟨e, he, rfl⟩ := List.mem_map.mp hx
    obtain ⟨hprime, hsub'⟩ := hf e he
    refine fit_and (hK.andNode _) ?_ (List.pairwise_pair.mpr ?_)
    · intro y hy
      rcases List.mem_pair.mp hy with rfl | rfl
      · exact hprime.fit
      · exact hsub'.fit
    · exact disjoint_element hK hdisj hprime hsub' (hsides e he).1 (hsides e he).2
  · intro R _ w W hW hnormal
    rw [value_decision hW, count_decision ht hr hnode hid hnormal]
    refine congrArg List.sum (List.map_congr_left fun e he => ?_)
    rw [(hf e he).1.value R w W hW hnormal, (hf e he).2.value R w W hW hnormal]

theorem represents_builds.{u} (hK : K.Simplifies) (ht : t.leaves.Nodup)
    (hr : G.Respects t root) :
    Builds K G fun id n => G.Below id root → Represents.{u} K G t id n where
  literal _ _ hnode hid := represents_literal hK hr hnode hid
  true _ hnode _ := represents_true hK hnode
  false _ hnode _ := represents_false hK hnode
  decision id elements f hnode hf hid := by
    refine represents_decision hK ht hr hnode hid fun e he => ?_
    have hchildren := SddGraph.mem_children he
    rw [← hnode] at hchildren
    exact ⟨(hf e he).1 (.head hchildren.1 hid), (hf e he).2 (.head hchildren.2 hid)⟩

/-- What is compiled from an SDD over a vtree is a decomposable and deterministic circuit, whose
value under normalised weights is the weighted count of the SDD. -/
theorem compileFromSdd_counts.{u} (hK : K.Simplifies) (ht : t.leaves.Nodup)
    (hr : G.Respects t root) :
    ∃ n N, (∀ fuel, N ≤ fuel → compileFromSdd K G fuel root = some (.ok n)) ∧
      (∀ m : Node, m.Below n → m.type = .And →
        m.children.Pairwise fun c d => Disjoint c.vars d.vars) ∧
      (∀ m : Node, m.Below n → m.type = .Or → m.children.Pairwise K.Inconsistent) ∧
      ∀ (R : Type u) [CommSemiring R] (w : Nat → R) (W : Int → R),
        K.Evaluates (Node.sumProduct w) W → (∀ v ∈ t.vars, W v + W (-(v : Int)) = 1) →
        n.value w = count (literalWeight W) t.vars fun τ => G.denote τ root := by
  obtain ⟨n, N, hrun, hn⟩ := compileFromSdd_spec (represents_builds hK ht hr) root
  have h := hn .refl
  exact ⟨n, N, hrun, fun m hm => (h.fit m hm).and, fun m hm => (h.fit m hm).or, h.value⟩

end

/-- The SDD of `x1 → x2`, where the sub of `¬x1` is true and does not mention `x2`. -/
def implicationGraph : SddGraph where
  node
    | 0 => .literal 1
    | 1 => .literal (-1)
    | 2 => .literal 2
    | 3 => .decision [(0, 2), (1, 4)]
    | _ => .true
  rank id := if id = 3 then 1 else 0
  acyclic id c hc := by
    match id with
    | 0 | 1 | 2 | _ + 4 => simp [SddNode.children] at hc
    | 3 =>
      simp only [SddNode.children, List.flatMap_cons, List.flatMap_nil, List.mem_append,
        List.mem_cons, List.not_mem_nil, or_false] at hc
      have hne : c ≠ 3 := by omega
      simp [hne]

def twoVtree : Vtree := .node (.leaf 1) (.leaf 2)

theorem implicationGraph_decision {id : Nat} {elements : List (Nat × Nat)}
    (h : implicationGraph.node id = .decision elements) : elements = [(0, 2), (1, 4)] := by
  match id with
  | 0 | 1 | 2 | _ + 4 => cases h
  | 3 => exact (SddNode.decision.inj h).symm

theorem implicationGraph_opposed (τ : Nat → Bool) :
    implicationGraph.denote τ 1 = !implicationGraph.denote τ 0 := by
  have hpos : implicationGraph.node 0 = .literal 1 := rfl
  have hneg : implicationGraph.node 1 = .literal (-1) := rfl
  rw [SddGraph.denote_literal hpos, SddGraph.denote_literal hneg]
  show (τ 1 == false) = !(τ 1 == true)
  cases τ 1 <;> rfl

theorem implicationGraph_mentions {id v : Nat} {l : Int}
    (hnode : implicationGraph.node id = .literal l) (h : implicationGraph.Mentions id v)
    {s : Finset Nat} (hl : l.natAbs ∈ s) : v ∈ s := by
  rw [SddGraph.eq_of_mentions_literal hnode h]
  exact hl

theorem implicationGraph_respects : implicationGraph.Respects twoVtree 3 where
  covers v h := by
    obtain ⟨m, l, -, hl, rfl⟩ := h
    match m with
    | 0 | 1 | 2 =>
      obtain rfl := SddNode.literal.inj hl
      decide
    | 3 | _ + 4 => cases hl
  split id elements _ hnode := by
    obtain rfl := implicationGraph_decision hnode
    refine ⟨.leaf 1, .leaf 2, .refl _, fun e he => ?_⟩
    rcases List.mem_pair.mp he with rfl | rfl
    · exact ⟨fun v hv => implicationGraph_mentions (l := 1) rfl hv (by decide),
        fun v hv => implicationGraph_mentions (l := 2) rfl hv (by decide)⟩
    · refine ⟨fun v hv => implicationGraph_mentions (l := -1) rfl hv (by decide), fun v hv => ?_⟩
      obtain ⟨l, hl, -⟩ | ⟨c, hc, -⟩ := SddGraph.mentions_cases hv
      · cases hl
      · cases hc
  inconsistent id elements _ hnode := by
    obtain rfl := implicationGraph_decision hnode
    refine List.pairwise_pair.mpr fun τ hboth => ?_
    have hopposed := implicationGraph_opposed τ
    rw [hboth.1, hboth.2] at hopposed
    cases hopposed
  exhaustive id elements _ hnode τ := by
    obtain rfl := implicationGraph_decision hnode
    have hopposed := implicationGraph_opposed τ
    cases hprime : implicationGraph.denote τ 0 with
    | true => exact ⟨(0, 2), by simp, hprime⟩
    | false => exact ⟨(1, 4), by simp, by rw [hopposed, hprime]; rfl⟩

/-- Positive literals weigh one third, and negative ones two thirds. -/
def thirds (ix : Nat) : ℚ := if ix % 2 = 0 then 1 / 3 else 2 / 3

theorem implicationGraph_counts :
    ∃ n N, (∀ fuel, N ≤ fuel →
        compileFromSdd Klay.reference implicationGraph fuel 3 = some (.ok n)) ∧
      (∀ m : Node, m.Below n → m.type = .And →
        m.children.Pairwise fun c d => Disjoint c.vars d.vars) ∧
      (∀ m : Node, m.Below n → m.type = .Or → m.children.Pairwise Klay.reference.Inconsistent) ∧
      n.value thirds = count (literalWeight fun l => thirds (Klay.literalCode l)) {1, 2}
        fun τ => implicationGraph.denote τ 3 := by
  obtain ⟨n, N, hrun, hand, hor, hvalue⟩ :=
    compileFromSdd_counts Klay.reference_simplifies (by decide) implicationGraph_respects
  refine ⟨n, N, hrun, hand, hor, ?_⟩
  refine hvalue ℚ thirds _ (Klay.reference_evaluates (sumProduct_absorbs thirds)) ?_
  have hvars : twoVtree.vars = {1, 2} := rfl
  rw [hvars]
  intro v hv
  rcases List.mem_pair.mp (Multiset.mem_coe.mp hv) with rfl | rfl
  · norm_num [Node.sumProduct, thirds, Klay.literalCode]
  · norm_num [Node.sumProduct, thirds, Klay.literalCode]

end Kompyle
