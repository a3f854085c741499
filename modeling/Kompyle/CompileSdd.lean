import Kompyle.KlayReference
import Kompyle.ListLoops
import Kompyle.PostOrder

namespace Kompyle

open ListLoops PostOrder

abbrev Cache := Nat → Option Node

namespace Cache

/-- `cache[id]`; a missing key is raised as a KeyError. -/
def get (cache : Cache) (id : Nat) : Except Nat Node :=
  match cache id with
  | some n => .ok n
  | none => .error id

def set (cache : Cache) (id : Nat) (n : Node) : Cache := fun i => if i = id then some n else cache i

@[simp] theorem set_self (cache : Cache) (id : Nat) (n : Node) : cache.set id n id = some n := by
  simp [set]

theorem set_of_ne {cache : Cache} {id i : Nat} {n : Node} (h : i ≠ id) :
    cache.set id n i = cache i := by
  simp [set, h]

end Cache

def elementNode (K : Klay) (cache : Cache) (e : Nat × Nat) : Except Nat Node := do
  let p ← cache.get e.1
  let s ← cache.get e.2
  return K.andNode [p, s]

def buildStep (K : Klay) (cache : Cache) : Entry → Except Nat Cache
  | .decision nid payload => do
    let nodes ← payload.mapM (elementNode K cache)
    return cache.set nid (K.orNode nodes)
  | .literal nid payload => return cache.set nid (K.literalNode payload)
  | .true nid => return cache.set nid K.trueNode
  | .false nid => return cache.set nid K.falseNode

def compileFromSdd (K : Klay) (G : SddGraph) (fuel : Nat) (root : Nat) :
    Option (Except Nat Node) :=
  match G.node root with
  | .true => some (.ok K.trueNode)
  | .false => some (.ok K.falseNode)
  | .literal l => some (.ok (K.literalNode l))
  | .decision _ => (postOrder G fuel root).map fun order => do
    let cache ← order.foldlM (buildStep K) fun _ => none
    cache.get root

/-- A relation between the nodes of the SDD and those of the circuit that the constructors
establish, one kind of node at a time. -/
structure Builds (K : Klay) (G : SddGraph) (R : Nat → Node → Prop) : Prop where
  literal : ∀ id l, G.node id = .literal l → R id (K.literalNode l)
  true : ∀ id, G.node id = .true → R id K.trueNode
  false : ∀ id, G.node id = .false → R id K.falseNode
  decision : ∀ id elements (f : Nat → Node), G.node id = .decision elements →
    (∀ e ∈ elements, R e.1 (f e.1) ∧ R e.2 (f e.2)) →
    R id (K.orNode (elements.map fun e => K.andNode [f e.1, f e.2]))

section

variable {K : Klay} {G : SddGraph} {R : Nat → Node → Prop}

def Cached (R : Nat → Node → Prop) (out : List Entry) (cache : Cache) : Prop :=
  ∀ id ∈ ids out, ∃ n, cache id = some n ∧ R id n

theorem cached_set {out : List Entry} {cache : Cache} (h : Cached R out cache) {id : Nat}
    {n : Node} (hid : id ∉ ids out) (hn : R id n) :
    Cached R (out ++ [entry G id]) (cache.set id n) := by
  intro i hi
  rw [ids_append, List.mem_append, List.mem_singleton, entry_id] at hi
  by_cases hii : i = id
  · subst hii
    exact ⟨n, Cache.set_self cache i n, hn⟩
  · have hmem := hi.resolve_right hii
    rw [Cache.set_of_ne hii]
    exact h i hmem

theorem build_elements (hR : Builds K G R) {out : List Entry} {cache : Cache}
    (h : Cached R out cache) {id : Nat} {elements : List (Nat × Nat)}
    (hnode : G.node id = .decision elements)
    (hc : ∀ c ∈ (G.node id).children, c ∈ ids out) :
    ∃ nodes, elements.mapM (elementNode K cache) = .ok nodes ∧ R id (K.orNode nodes) := by
  have hget : ∀ c ∈ (G.node id).children,
      cache c = some ((cache c).getD K.falseNode) ∧ R c ((cache c).getD K.falseNode) := by
    intro c hcm
    obtain ⟨n, hn, hs⟩ := h c (hc c hcm)
    rw [hn]
    exact ⟨rfl, hs⟩
  have hmem : ∀ e ∈ elements, e.1 ∈ (G.node id).children ∧ e.2 ∈ (G.node id).children := by
    intro e he
    rw [hnode]
    exact SddGraph.mem_children he
  have hstep : ∀ e ∈ elements, elementNode K cache e =
      .ok (K.andNode [(cache e.1).getD K.falseNode, (cache e.2).getD K.falseNode]) := by
    intro e he
    obtain ⟨hp, hs⟩ := hmem e he
    simp only [elementNode, Cache.get]
    rw [(hget e.1 hp).1, (hget e.2 hs).1]
    rfl
  refine ⟨_, mapM_of_forall_ok hstep, ?_⟩
  apply hR.decision id elements (fun c => (cache c).getD K.falseNode) hnode
  intro e he
  obtain ⟨hp, hs⟩ := hmem e he
  exact ⟨(hget e.1 hp).2, (hget e.2 hs).2⟩

/-- One turn of the build loop finds what it looks up, and keeps the relation. -/
theorem buildStep_spec (hR : Builds K G R) {out : List Entry} {cache : Cache}
    (h : Cached R out cache) {id : Nat} (hid : id ∉ ids out)
    (hc : ∀ c ∈ (G.node id).children, c ∈ ids out) :
    ∃ cache', buildStep K cache (entry G id) = .ok cache' ∧
      Cached R (out ++ [entry G id]) cache' := by
  cases hnode : G.node id with
  | literal l =>
    have he : entry G id = .literal id l := by simp [entry, hnode]
    exact ⟨_, by rw [he]; rfl, cached_set h hid (hR.literal id l hnode)⟩
  | true =>
    have he : entry G id = .true id := by simp [entry, hnode]
    exact ⟨_, by rw [he]; rfl, cached_set h hid (hR.true id hnode)⟩
  | false =>
    have he : entry G id = .false id := by simp [entry, hnode]
    exact ⟨_, by rw [he]; rfl, cached_set h hid (hR.false id hnode)⟩
  | decision elements =>
    have he : entry G id = .decision id elements := by simp [entry, hnode]
    obtain ⟨nodes, hnodes, hs⟩ := build_elements hR h hnode hc
    refine ⟨cache.set id (K.orNode nodes), ?_, cached_set h hid hs⟩
    rw [he]
    simp only [buildStep, hnodes]
    rfl

theorem build_spec (hR : Builds K G R) {order : List Entry} (h : Linear G order) :
    ∃ cache, order.foldlM (buildStep K) (fun _ => none) = .ok cache ∧ Cached R order cache := by
  induction h with
  | nil => exact ⟨_, rfl, by simp [Cached, ids]⟩
  | @emit out id _ hid hc ih =>
    obtain ⟨cache, hrun, hok⟩ := ih
    obtain ⟨cache', hstep, hok'⟩ := buildStep_spec hR hok hid hc
    refine ⟨cache', ?_, hok'⟩
    rw [List.foldlM_append, hrun]
    show List.foldlM (buildStep K) cache [entry G id] = _
    rw [List.foldlM_cons, hstep]
    rfl

/-- The call finishes without a missing key, and what it returns is related to the root. -/
theorem compileFromSdd_spec (hR : Builds K G R) (root : Nat) :
    ∃ n N, (∀ fuel, N ≤ fuel → compileFromSdd K G fuel root = some (.ok n)) ∧ R root n := by
  cases hnode : G.node root with
  | literal l =>
    exact ⟨_, 0, fun fuel _ => by simp only [compileFromSdd, hnode], hR.literal root l hnode⟩
  | true =>
    exact ⟨_, 0, fun fuel _ => by simp only [compileFromSdd, hnode], hR.true root hnode⟩
  | false =>
    exact ⟨_, 0, fun fuel _ => by simp only [compileFromSdd, hnode], hR.false root hnode⟩
  | decision elements =>
    obtain ⟨order, N, hN, hlin, hroot, -⟩ := postOrder_spec G root
    obtain ⟨cache, hrun, hok⟩ := build_spec hR hlin
    obtain ⟨n, hn, hs⟩ := hok root hroot
    refine ⟨n, N, fun fuel hfuel => ?_, hs⟩
    simp only [compileFromSdd, hnode, hN fuel hfuel, Option.map_some, hrun]
    show some (cache.get root) = _
    simp [Cache.get, hn]

end

def SameFunction (K : Klay) (G : SddGraph) (id : Nat) (n : Node) : Prop :=
  ∀ σ τ, K.Evaluates (Node.boolean σ) (literalHolds τ) → n.denote σ = G.denote τ id

section

variable {K : Klay} {G : SddGraph}

theorem sameFunction_decision {id : Nat} {elements : List (Nat × Nat)}
    (hnode : G.node id = .decision elements) {f : Nat → Node}
    (hf : ∀ e ∈ elements, SameFunction K G e.1 (f e.1) ∧ SameFunction K G e.2 (f e.2)) :
    SameFunction K G id (K.orNode (elements.map fun e => K.andNode [f e.1, f e.2])) := by
  intro σ τ hK
  rw [SddGraph.denote_decision hnode, denote_or hK, List.any_map, Bool.eq_iff_iff,
    List.any_eq_true, List.any_eq_true]
  refine exists_congr fun e => and_congr_right fun he => ?_
  have hprime := (hf e he).1 σ τ hK
  have hsub := (hf e he).2 σ τ hK
  show (K.andNode [f e.1, f e.2]).denote σ = true ↔ _
  rw [denote_and hK, ← hprime, ← hsub]
  simp

theorem sameFunction_builds : Builds K G (SameFunction K G) where
  literal id l h := by
    intro σ τ hK
    rw [SddGraph.denote_literal h, denote_literal hK]
  true id h := by
    intro σ τ hK
    rw [SddGraph.denote_true h, denote_trueNode hK]
  false id h := by
    intro σ τ hK
    rw [SddGraph.denote_false h, denote_falseNode hK]
  decision id elements f h hf := sameFunction_decision h hf

end

/-- The call finishes without a missing key, and the node it returns has the Boolean function of
the root. -/
theorem compileFromSdd_denote (K : Klay) (G : SddGraph) (root : Nat) :
    ∃ n N, (∀ fuel, N ≤ fuel → compileFromSdd K G fuel root = some (.ok n)) ∧
      ∀ σ τ, K.Evaluates (Node.boolean σ) (literalHolds τ) → n.denote σ = G.denote τ root :=
  compileFromSdd_spec sameFunction_builds root

/-- A graph in which nodes are shared: three of them are elements of both decisions, and one is
both a prime and a sub. -/
def sharedGraph : SddGraph where
  node
    | 0 => .literal 1
    | 1 => .literal (-1)
    | 2 => .literal (-2)
    | 3 => .decision [(0, 0), (1, 2)]
    | 4 => .decision [(0, 2), (1, 3)]
    | _ => .true
  rank id := id
  acyclic id c hc := by
    match id with
    | 0 | 1 | 2 | _ + 5 => simp [SddNode.children] at hc
    | 3 =>
      show c < 3
      simp [SddNode.children] at hc
      omega
    | 4 =>
      show c < 4
      simp [SddNode.children] at hc
      omega

theorem sharedGraph_denote :
    ∃ n N, (∀ fuel, N ≤ fuel → compileFromSdd Klay.reference sharedGraph fuel 4 = some (.ok n)) ∧
      ∀ τ, n.denote (Klay.leafHolds τ) = sharedGraph.denote τ 4 := by
  obtain ⟨n, N, hrun, hn⟩ := compileFromSdd_denote Klay.reference sharedGraph 4
  exact ⟨n, N, hrun, fun τ => hn _ τ (Klay.reference_denotes τ)⟩

end Kompyle
