import Kompyle.MaskedDeterminism
import Kompyle.NodePolynomial
import Kompyle.PipelineCount

namespace Kompyle

open WeightedCount SemiringProgram

/-- The nodes that the circuit's constructors can make. -/
inductive Klay.Built (K : Klay) : Node → Prop
  | trueNode : Klay.Built K K.trueNode
  | falseNode : Klay.Built K K.falseNode
  | literalNode (l : Int) : Klay.Built K (K.literalNode l)
  | andNode {xs : List Node} (h : ∀ x ∈ xs, Klay.Built K x) : Klay.Built K (K.andNode xs)
  | orNode {xs : List Node} (h : ∀ x ∈ xs, Klay.Built K x) : Klay.Built K (K.orNode xs)

/-- All field values of the CNF are among those of `P`. -/
structure ArjunCNF.Over {F : Type*} (cnf : ArjunCNF F) (P : F → Prop) : Prop where
  multiplierWeight : P cnf.multiplierWeight
  weights : ∀ v p, cnf.weights v = some p → P p.1 ∧ P p.2

/-- Arjun makes no field values that the program could not make. -/
structure Arjun.Keeps {F : Type*} (A : Arjun F) (P : F → Prop) : Prop where
  standaloneBackbone : ∀ s cnf, cnf.Over P → (A.standaloneBackbone s cnf).Over P
  standaloneMinimizeIndep : ∀ s cnf b, cnf.Over P → (A.standaloneMinimizeIndep s cnf b).Over P
  standaloneElimToFile : ∀ s cnf conf, cnf.Over P → (A.standaloneElimToFile s cnf conf).Over P
  renumberSamplingVarsForGanak : ∀ cnf, cnf.Over P → (A.renumberSamplingVarsForGanak cnf).Over P

theorem runArjun_over {F : Type*} {A : Arjun F} {P : F → Prop} (hA : A.Keeps P) {cnf : ArjunCNF F}
    (h : cnf.Over P) (ac : ArjunConf) : (runArjun A cnf ac).Over P := by
  have hlast : ∀ s t (cnf : ArjunCNF F), cnf.Over P → (
      let cnf := A.standaloneMinimizeIndep s cnf ac.etofConf.allIndep
      if ac.arjunFurtherMinCutoff ≤ cnf.samplVars.length ∧ ac.doPuura ≠ 0 then
        A.standaloneElimToFile t cnf ac.etofConf
      else A.renumberSamplingVarsForGanak cnf).Over P := by
    intro s t cnf h
    have hmin := hA.standaloneMinimizeIndep s cnf ac.etofConf.allIndep h
    dsimp only
    split
    next => exact hA.standaloneElimToFile _ _ _ hmin
    next => exact hA.renumberSamplingVarsForGanak _ hmin
  unfold runArjun
  split
  next => exact hlast _ _ _ (hA.standaloneBackbone _ cnf h)
  next => exact hlast _ _ cnf h

section

variable {K : Klay}

theorem Klay.Built.clean (hS : K.Simplifies) {n : Node} (h : K.Built n) : n.Clean := by
  induction h with
  | trueNode =>
    have hconstant := Node.type_of_constant (Or.inl hS.trueNode)
    exact Node.clean_leaf hconstant.1 hconstant.2
  | falseNode => exact Or.inl hS.falseNode
  | literalNode l => exact Node.clean_leaf (by simp [hS.literalNode l]) (by simp [hS.literalNode l])
  | andNode _ ih => exact Node.clean_andOf (hS.andNode _) ih
  | orNode _ ih => exact Node.clean_orOf (hS.orNode _) ih

/-- What Ganak answers is built if the weights are. -/
theorem Answers.built {inst : GanakInstance FCircuit} {x : FCircuit}
    (h : Answers (FGenCircuit.impl K fun _ => none) inst x)
    (hweights : ∀ l y, (l, y) ∈ inst.litWeights → K.Built y.node) : K.Built x.node := by
  obtain ⟨prog, out, hprog, -⟩ := h
  have hpair : ∀ {m n : Node}, K.Built m → K.Built n → ∀ x ∈ [m, n], K.Built x :=
    fun hm hn => List.forall_mem_cons.mpr ⟨hm, List.forall_mem_singleton.mpr hn⟩
  refine eval_keeps (P := fun x => K.Built x.node) (impl_plain.withLit _) .falseNode .trueNode
    (fun l y hy => ?_) (fun _ _ hx hy => .orNode (hpair hx hy))
    (fun _ _ hx hy => .andNode (hpair hx hy)) hprog
  obtain rfl := Option.some.inj hy
  cases hw : inst.weight? l with
  | none => exact .trueNode
  | some y => exact hweights l y (GanakInstance.mem_of_weight? hw)

theorem arjunInstance_weights {cnf : ArjunCNF FCircuit}
    (h : cnf.Over fun x => K.Built x.node) {l : GanakLit} {y : FCircuit}
    (hy : (l, y) ∈ (arjunInstance FCircuit.dup cnf.toSimplifiedCNF).litWeights) :
    K.Built y.node := by
  unfold arjunInstance at hy
  split at hy
  next => cases hy
  next =>
    obtain ⟨v, -, hcall⟩ := List.mem_flatMap.mp hy
    unfold weightCalls at hcall
    split at hcall
    next => cases hcall
    next pos neg hv =>
      obtain ⟨hpos, hneg⟩ := h.weights v _ hv
      split at hcall
      next => cases hcall
      next =>
        rcases List.mem_pair.mp hcall with heq | heq
        · cases heq
          exact hpos
        · cases heq
          exact hneg

theorem built_compileArjun {ganak : GanakInstance FCircuit → FCircuit}
    {cnf : ArjunCNF FCircuit} (h : K.Built cnf.multiplierWeight.node)
    (hganak : K.Built (ganak (arjunInstance FCircuit.dup cnf.toSimplifiedCNF)).node) :
    K.Built (compileArjun K ganak cnf.toSimplifiedCNF) := by
  unfold compileArjun
  dsimp only
  split
  next => exact .falseNode
  next =>
    split
    next => exact hganak
    next =>
      split
      next => exact h
      next => exact .andNode (List.forall_mem_cons.mpr ⟨h, List.forall_mem_singleton.mpr hganak⟩)

variable {L : GanakLibrary FCircuit} {cnfFile : String} {file : Except String String} {n : Nat}
  {dimacs : List (List Int)} {declared : Option (List Nat)} {cnf : ArjunCNF FCircuit}

/-- What Arjun is started on has literals as weights. -/
theorem configureArjun_over (hA : L.arjun.Documented (FGenCircuit.impl K fun _ => none))
    (hread : cnf.Reads (FGenCircuit.one K) n dimacs declared) (etofConf : ElimToFileConf) :
    (configureArjun K L.arjun cnf etofConf).1.Over fun x => K.Built x.node := by
  obtain ⟨hconf, hnone⟩ := configured_samplVars hA hread
  have hlt : ∀ v ∈ (if cnf.samplVarsSet then cnf else
      L.arjun.setSamplVars cnf (List.range cnf.nVars)).samplVars, v <
        (if cnf.samplVarsSet then cnf else L.arjun.setSamplVars cnf (List.range cnf.nVars)).nVars := by
    intro v hv
    rw [hconf.samplVars] at hv
    rw [hconf.nVars, hread.nVars]
    exact samplingScope_lt hread v hv
  obtain ⟨weights, hset, hweights⟩ := setLitWeights_spec hA
    (fun v => FGenCircuit.litField K (v + 1)) (fun v => FGenCircuit.litField K (-(v + 1))) _ hlt
  rw [configureArjun_eq, hset]
  refine ⟨?_, fun v p hp => ?_⟩
  · rw [hconf.multiplierWeight, hread.multiplierWeight]
    exact .trueNode
  · have hp' : weights v = some p := hp
    rw [hweights, hconf.samplVars, hnone, hread.weights] at hp'
    split at hp'
    next =>
      obtain rfl := Option.some.inj hp'
      exact ⟨.literalNode _, .literalNode _⟩
    next => cases hp'

/-- The circuit is made by klay's constructors alone, with and without Arjun. -/
theorem compileGanak_built (hL : L.Documented (FGenCircuit.impl K fun _ => none))
    (hkeeps : L.arjun.Keeps fun x => K.Built x.node)
    (hfile : readDimacsInputFile L cnfFile file = .ok cnf)
    (hread : cnf.Reads (FGenCircuit.one K) n dimacs declared) {ganakOpts : GanakOptions}
    {arjunOpts : ArjunOptions}
    (hopts : arjunOpts.allIndep = true → ∀ v < n, v ∈ samplingScope n declared)
    {w : Nat → ℕ} {W : Int → ℕ} (hK : K.Evaluates (Node.sumProduct w) W) {node : Node}
    (hnode : compileFromCnfUsingGanak K L cnfFile file ganakOpts arjunOpts = .ok node) :
    K.Built node := by
  have hcount := hL.count (makeGanakConf L.conf ganakOpts)
  rw [compileFromCnfUsingGanak, hfile] at hnode
  change (if arjunOpts.doArjun = true then _ else _) = Except.ok node at hnode
  split at hnode
  next =>
    obtain rfl := Except.ok.inj hnode
    obtain ⟨hall, -⟩ := configureArjun_leavesTotal hL.arjun hread hopts hK
      (circuit_interprets hK fun _ => none)
    have htotal := runArjun_leavesTotal hL.arjun _
      { makeArjunConf arjunOpts with
        etofConf := (configureArjun K L.arjun cnf (makeArjunConf arjunOpts).etofConf).2 } hall
    have hover := runArjun_over hkeeps
      (configureArjun_over hL.arjun hread (makeArjunConf arjunOpts).etofConf)
      { makeArjunConf arjunOpts with
        etofConf := (configureArjun K L.arjun cnf (makeArjunConf arjunOpts).etofConf).2 }
    have hwf : (arjunInstance FCircuit.dup _).WellFormed :=
      HandsOver.wellFormed.{0} (arjunInstance_handsOver (fun _ => rfl) htotal.duplicateFree)
    exact built_compileArjun hover.multiplierWeight
      ((hcount _ hwf).built fun _ _ => arjunInstance_weights hover)
  next =>
    obtain rfl := Except.ok.inj hnode
    obtain ⟨hconf, -⟩ := configured_samplVars hL.arjun hread
    have hdirect := directInstance_handsDirectly K (if cnf.samplVarsSet then cnf else
      L.arjun.setSamplVars cnf (List.range cnf.nVars)).toSimplifiedCNF
    have hwf := hdirect.wellFormed (I := FGenCircuit.impl K fun _ => none) hread hconf
    have hbuilt := (hcount _ hwf).built fun l y hy => by
      rw [(litWeightCalls_spec hy).2]
      exact .literalNode _
    rw [compileDirect]
    split at hbuilt
    next h => rwa [if_pos h]
    next h => rwa [if_neg h]

/-- The leaf of a literal. -/
def litIx (K : Klay) (v : Nat) (b : Bool) : Nat :=
  K.internalVal (if b then (v : Int) else -(v : Int))

theorem litIx_div (hS : K.Simplifies) (v : Nat) (b : Bool) : litIx K v b / 2 = K.varIx v := by
  refine (hS.internalVal _ _).mpr ?_
  split <;> simp

theorem varIx_injective (hS : K.Simplifies) {u v : Nat} (h : K.varIx u = K.varIx v) : u = v := by
  simpa using (hS.internalVal u v).mp h

theorem litIx_injective (hS : K.Simplifies) (hneg : K.Complements) {u v : Nat} (hu : u ≠ 0)
    {b c : Bool} (h : litIx K u b = litIx K v c) : u = v ∧ b = c := by
  have hvar : K.varIx u = K.varIx v := by rw [← litIx_div hS u b, ← litIx_div hS v c, h]
  obtain rfl := varIx_injective hS hvar
  have hxor : litIx K u false = litIx K u true ^^^ 1 := hneg u (by omega)
  have hne := xor_one_ne (litIx K u true)
  rw [← hxor] at hne
  refine ⟨rfl, ?_⟩
  cases b with
  | true =>
    cases c with
    | true => rfl
    | false => exact absurd h.symm hne
  | false =>
    cases c with
    | true => exact absurd h hne
    | false => rfl

/-- The count of the CNF in the leaves themselves. -/
theorem uniform_dimacsCount (hS : K.Simplifies) (hneg : K.Complements) {s : Finset Nat}
    (dimacs : List (List Int)) :
    Uniform litDegree (s.image fun v => K.varIx (v + 1))
      (dimacsCount (dimacsWeight fun l => (MvPolynomial.X (K.internalVal l) : MvPolynomial ℕ ℕ)) s
        dimacs) := by
  have hcode : ∀ u ∈ s.image (· + 1), ∀ v ∈ s.image (· + 1), ∀ b c, litIx K u b = litIx K v c →
      K.varIx u = K.varIx v ∧ b = c := by
    intro u hu v _ b c h
    obtain ⟨k, -, rfl⟩ := Finset.mem_image.mp hu
    obtain ⟨rfl, rfl⟩ := litIx_injective hS hneg (Nat.succ_ne_zero k) h
    exact ⟨rfl, rfl⟩
  have huniform : Uniform litDegree ((s.image (· + 1)).image K.varIx)
      (dimacsCount (fun v b => (MvPolynomial.X (litIx K v b) : MvPolynomial ℕ ℕ)) s dimacs) :=
    uniform_count (fun v b => (litDegree_single _).trans (by rw [litIx_div hS]))
      (fun u _ v _ h => varIx_injective hS h) hcode _
  rwa [Finset.image_image] at huniform

theorem dimacsCount_of_unsat {R : Type*} [CommSemiring R] (W : Nat → Bool → R) (s : Finset Nat)
    (h : ∀ τ, cnfHolds τ dimacs = false) : dimacsCount W s dimacs = 0 := by
  have hnone : project (s.image (· + 1)) (fun τ => cnfHolds τ dimacs) = fun _ => false := by
    funext σ
    refine Bool.eq_false_iff.mpr fun hσ => ?_
    obtain ⟨τ, -, hτ⟩ := project_eq_true.mp hσ
    rw [h τ] at hτ
    cases hτ
  rw [dimacsCount, hnone, count_false]

end

theorem reference_keeps {F : Type} (P : F → Prop) : (Arjun.reference (F := F)).Keeps P where
  standaloneBackbone _ _ h := h
  standaloneMinimizeIndep _ _ _ h := h
  standaloneElimToFile _ _ _ h := ⟨h.multiplierWeight, h.weights⟩
  renumberSamplingVarsForGanak _ h := ⟨h.multiplierWeight, h.weights⟩

end Kompyle
