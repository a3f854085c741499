import Kompyle.CountRules
import Kompyle.GanakReference

namespace Kompyle

open WeightedCount SemiringProgram

section

variable {F : Type*} {cnf : ArjunCNF F} {one : F} {n : Nat} {dimacs : List (List Int)}
  {declared : Option (List Nat)}

theorem sat_reads (h : cnf.Reads one n dimacs declared) (τ : Nat → Bool) :
    cnf.sat (fun v => τ (v + 1)) = cnfHolds τ dimacs := by
  rw [SimplifiedCNF.sat, h.clauses, h.redClauses, List.append_nil, cnfHolds, List.all_map,
    Bool.eq_iff_iff, List.all_eq_true, List.all_eq_true]
  refine forall₂_congr fun cl hcl => ?_
  rw [Function.comp_apply, List.any_map, List.any_eq_true, List.any_eq_true]
  refine exists_congr fun d => and_congr_right fun hd => ?_
  rw [← holds_parseLit τ (h.range cl hcl d hd).1]
  rfl

theorem samplingScope_lt (h : cnf.Reads one n dimacs declared) :
    ∀ v ∈ declared.getD (List.range n), v < n := by
  intro v hv
  cases declared with
  | none => exact List.mem_range.mp hv
  | some vs =>
    refine h.samplVars_lt v ?_
    rw [h.samplVars]
    exact hv

end

/-- The weighted count of the CNF over the variables of `s`, which are from 0 there and from 1 in
the CNF; the other variables are projected away. -/
noncomputable def dimacsCount {R : Type*} [CommSemiring R] (W : Nat → Bool → R) (s : Finset Nat)
    (dimacs : List (List Int)) : R :=
  WeightedCount.count W (s.image (· + 1)) (project (s.image (· + 1)) fun τ => cnfHolds τ dimacs)

/-- The CNF with the sampling variables `vs`, and no optional ones besides. -/
structure Configured {F : Type*} (cnf : ArjunCNF F) (vs : List Nat) (cnf' : ArjunCNF F) :
    Prop where
  nVars : cnf'.nVars = cnf.nVars
  clauses : cnf'.clauses = cnf.clauses
  redClauses : cnf'.redClauses = cnf.redClauses
  samplVars : cnf'.samplVars = vs
  optSamplVars : cnf'.optSamplVars.toFinset = ∅ ∨ cnf'.optSamplVars.toFinset = vs.toFinset
  multiplierWeight : cnf'.multiplierWeight = cnf.multiplierWeight

section

variable {F : Type} {I : Impl GanakLit F} {A : Arjun F} {cnf cnf' : ArjunCNF F} {n : Nat}
  {dimacs : List (List Int)} {declared : Option (List Nat)}

theorem dimacsCount_eq {R : Type*} [CommSemiring R] {one : F}
    (h : cnf.Reads one n dimacs declared) (W : Nat → Bool → R) (s : Finset Nat) :
    dimacsCount W s dimacs =
      WeightedCount.count (fun v => W (v + 1)) s (project s cnf.sat) := by
  refine count_project_image (fun u _ v _ he => Nat.succ.inj he) ?_ ?_
  · exact fun τ => (sat_reads h τ).symm
  · intro σ
    refine ⟨fun v => σ (v - 1), fun u _ => rfl, ?_⟩
    rw [← sat_reads h]
    rfl

theorem Configured.scope (h : Configured cnf (declared.getD (List.range n)) cnf') :
    cnf'.scope = samplingScope n declared := by
  rw [SimplifiedCNF.scope, h.samplVars]
  rcases h.optSamplVars with hopt | hopt
  · rw [hopt]
    exact Finset.union_empty _
  · rw [hopt]
    exact Finset.union_self _

/-- What Arjun is started on weighs what the CNF does. -/
theorem Configured.total {R : Type} [CommSemiring R] {ω : F → R} (hω : I.Interprets ω)
    (hread : cnf.Reads I.one n dimacs declared)
    (h : Configured cnf (declared.getD (List.range n)) cnf') {W : Nat → Bool → R}
    (hW : ∀ v ∈ declared.getD (List.range n), ∀ b, cnf'.litWeight ω v b = W (v + 1) b) :
    cnf'.toSimplifiedCNF.total ω = dimacsCount W (samplingScope n declared) dimacs := by
  have hsat : cnf'.sat = cnf.sat := by
    funext σ
    rw [SimplifiedCNF.sat, SimplifiedCNF.sat, h.clauses, h.redClauses]
  rw [SimplifiedCNF.total, h.multiplierWeight, hread.multiplierWeight, hω.one, one_mul, h.scope,
    hsat, dimacsCount_eq hread]
  exact count_congr (fun v hv b => hW v (List.mem_toFinset.mp hv) b) fun _ _ => rfl

theorem Configured.allIndep (hread : cnf.Reads I.one n dimacs declared)
    (h : Configured cnf (declared.getD (List.range n)) cnf')
    (hall : ∀ v < n, v ∈ samplingScope n declared) : cnf'.AllIndep := by
  intro v hv
  rw [h.nVars, hread.nVars] at hv
  rw [h.scope]
  exact hall v hv

theorem mem_samplingScope_none {v : Nat} (hv : v < n) : v ∈ samplingScope n none :=
  List.mem_toFinset.mpr (List.mem_range.mpr hv)

/-- Without declared sampling variables all variables are made sampling variables. -/
theorem configured_samplVars (hA : A.Documented I)
    (hread : cnf.Reads I.one n dimacs declared) :
    Configured cnf (declared.getD (List.range n))
      (if cnf.samplVarsSet then cnf else A.setSamplVars cnf (List.range cnf.nVars)) ∧
    (if cnf.samplVarsSet then cnf else A.setSamplVars cnf (List.range cnf.nVars)).weights =
      cnf.weights := by
  cases declared with
  | some vs =>
    have hset : cnf.samplVarsSet = true := hread.samplVarsSet
    rw [if_pos hset]
    refine ⟨⟨rfl, rfl, rfl, hread.samplVars, ?_, rfl⟩, rfl⟩
    rcases hread.optSamplVars with hopt | hopt
    · exact .inl (by rw [hopt]; rfl)
    · exact .inr (by rw [hopt, hread.samplVars]; rfl)
  | none =>
    have hset : ¬ cnf.samplVarsSet = true := by simp [hread.samplVarsSet]
    have hsampl : cnf.samplVars = [] := hread.samplVars
    obtain ⟨opt, optSet, hopt, heq⟩ := hA.setSamplVars cnf (List.range cnf.nVars)
      List.pairwise_lt_range fun v hv => List.mem_range.mp hv
    rw [if_neg hset, heq]
    refine ⟨⟨rfl, rfl, rfl, by rw [hread.nVars]; rfl, ?_, rfl⟩, rfl⟩
    rcases hopt with rfl | rfl
    · have hnil : cnf.optSamplVars = [] := by
        rcases hread.optSamplVars with hnil | hnil
        · exact hnil
        · rw [hnil, hsampl]
      exact .inl (by rw [hnil]; rfl)
    · exact .inr (by rw [hread.nVars]; rfl)

theorem Configured.setLitWeights (hA : A.Documented I) {vs : List Nat}
    (h : Configured cnf vs cnf') (hvs : ∀ v ∈ vs, v < cnf.nVars) (pos neg : Nat → F) :
    Configured cnf vs (setLitWeights A pos neg (A.setWeighted cnf' true)) ∧
      ∀ v ∈ vs, (Kompyle.setLitWeights A pos neg (A.setWeighted cnf' true)).weights v =
        some (pos v, neg v) := by
  obtain ⟨weights, heq, hweights⟩ := setLitWeights_spec hA pos neg cnf'
    (by rw [h.samplVars, h.nVars]; exact hvs)
  rw [heq]
  refine ⟨⟨h.nVars, h.clauses, h.redClauses, h.samplVars, h.optSamplVars, h.multiplierWeight⟩,
    fun v hv => ?_⟩
  show weights v = _
  rw [hweights, h.samplVars, if_pos hv]

end

section

variable {K : Klay} {R : Type} [CommSemiring R] {w : Nat → R} {W : Int → R} {n : Nat}
  {dimacs : List (List Int)} {declared : Option (List Nat)} {arjunOpts : ArjunOptions}

theorem circuit_interprets (hK : K.Evaluates (Node.sumProduct w) W)
    (lit : GanakLit → Option FCircuit) :
    (FGenCircuit.impl K lit).Interprets fun x => x.node.value w where
  zero := value_falseNode hK
  one := value_trueNode hK
  add x y := by
    have hor : (K.orNode [x.node, y.node]).value w = x.node.value w + y.node.value w := by
      rw [value_or hK]
      simp
    exact hor
  mul x y := by
    have hand : (K.andNode [x.node, y.node]).value w = x.node.value w * y.node.value w := by
      rw [value_and hK]
      simp
    exact hand

theorem count_interprets (lit : GanakLit → Option FCount) :
    (FGenCount.impl lit).Interprets FCount.val :=
  ⟨rfl, rfl, fun _ _ => rfl, fun _ _ => rfl⟩

/-- The weight of a literal of the CNF. -/
def dimacsWeight (W : Int → R) (v : Nat) (b : Bool) : R := W (if b then (v : Int) else -(v : Int))

theorem configureArjun_eq (A : Arjun FCircuit) (cnf : ArjunCNF FCircuit)
    (etofConf : ElimToFileConf) : configureArjun K A cnf etofConf =
      (setLitWeights A (fun v => FGenCircuit.litField K (v + 1))
        (fun v => FGenCircuit.litField K (-(v + 1)))
        (A.setWeighted (if cnf.samplVarsSet then cnf else
          A.setSamplVars cnf (List.range cnf.nVars)) true),
        if cnf.samplVarsSet then etofConf else ⟨true⟩) := by
  unfold configureArjun
  dsimp only
  split
  next => rfl
  next => rfl

theorem configureArjun_leavesTotal {A : Arjun FCircuit}
    {I : Impl GanakLit FCircuit} (hA : A.Documented I)
    {cnf : ArjunCNF FCircuit} (hread : cnf.Reads I.one n dimacs declared)
    (hopts : arjunOpts.allIndep = true → ∀ v < n, v ∈ samplingScope n declared)
    (hK : K.Evaluates (Node.sumProduct w) W) (hω : I.Interprets fun x => x.node.value w) :
    let r := configureArjun K A cnf (makeArjunConf arjunOpts).etofConf
    (r.2.allIndep = true → r.1.AllIndep) ∧ r.1.total (fun x => x.node.value w) =
      dimacsCount (dimacsWeight W) (samplingScope n declared) dimacs := by
  have hlt := samplingScope_lt hread
  obtain ⟨hconf, hweights⟩ := (configured_samplVars hA hread).1.setLitWeights hA
    (by rw [hread.nVars]; exact hlt) (fun v => FGenCircuit.litField K (v + 1))
    (fun v => FGenCircuit.litField K (-(v + 1)))
  dsimp only
  rw [configureArjun_eq]
  refine ⟨fun hall => hconf.allIndep hread ?_, hconf.total hω hread fun v hv b => ?_⟩
  · cases declared with
    | none => exact fun v hv => mem_samplingScope_none hv
    | some vs =>
      have hset : cnf.samplVarsSet = true := hread.samplVarsSet
      change (if cnf.samplVarsSet then _ else _ : ElimToFileConf).allIndep = true at hall
      rw [if_pos hset] at hall
      exact hopts hall
  · rw [SimplifiedCNF.litWeight, hweights v hv]
    cases b with
    | true => exact value_literal hK _
    | false => exact value_literal hK _

theorem value_compileArjun (hK : K.Evaluates (Node.sumProduct w) W)
    (ganak : GanakInstance FCircuit → FCircuit) (cnf : SimplifiedCNF FCircuit) :
    (compileArjun K ganak cnf).value w = cnf.multiplierWeight.node.value w *
      (ganak (arjunInstance FCircuit.dup cnf)).node.value w := by
  unfold compileArjun
  dsimp only
  split
  next hg =>
    have hvalue : (ganak (arjunInstance FCircuit.dup cnf)).node.value w = 0 :=
      Node.read_false _ hg
    rw [hvalue, mul_zero, value_falseNode hK]
  next =>
    split
    next hmw =>
      have hvalue : cnf.multiplierWeight.node.value w = 1 := Node.read_true _ hmw
      rw [hvalue, one_mul]
    next =>
      split
      next hg =>
        have hvalue : (ganak (arjunInstance FCircuit.dup cnf)).node.value w = 1 :=
          Node.read_true _ hg
        rw [hvalue, mul_one]
      next =>
        rw [value_and hK]
        simp

end

section

variable {F : Type} {I : Impl GanakLit F} {cnf cnf' : ArjunCNF F} {n : Nat}
  {dimacs : List (List Int)} {declared : Option (List Nat)} {inst : GanakInstance F}

/-- What is handed to Ganak where Arjun does not run, but for the weights. -/
structure HandsDirectly (cnf : SimplifiedCNF F) (inst : GanakInstance F) : Prop where
  newVars : inst.newVars = cnf.nVars
  irredClauses : inst.irredClauses = cnf.clauses.map cmsToGanakCl
  redClauses : inst.redClauses = cnf.redClauses.map cmsToGanakCl
  indepSupport : inst.indepSupport = (cnf.samplVars.map (· + 1)).toFinset
  optionalIndepSupport : inst.optionalIndepSupport =
    if (cnf.optSamplVars.map (· + 1)).toFinset = ∅ then (cnf.samplVars.map (· + 1)).toFinset
    else (cnf.optSamplVars.map (· + 1)).toFinset

theorem sat_handsDirectly (h : HandsDirectly cnf.toSimplifiedCNF inst) (τ : Nat → Bool) :
    inst.sat τ = cnf.sat fun v => τ (v + 1) := by
  rw [GanakInstance.sat, SimplifiedCNF.sat, h.irredClauses, h.redClauses, ← List.map_append,
    List.all_map]
  congr 1
  funext cl
  rw [Function.comp_apply, cmsToGanakCl, List.any_map]
  rfl

theorem toFinset_map_succ (vs : List Nat) :
    (vs.map (· + 1)).toFinset = vs.toFinset.image (· + 1) := by
  ext v
  simp

theorem HandsDirectly.optionalIndepSupport_eq (h : HandsDirectly cnf'.toSimplifiedCNF inst)
    (hconf : Configured cnf (declared.getD (List.range n)) cnf') :
    inst.indepSupport = (samplingScope n declared).image (· + 1) ∧
      inst.optionalIndepSupport = (samplingScope n declared).image (· + 1) := by
  have hindep : inst.indepSupport = (samplingScope n declared).image (· + 1) := by
    rw [h.indepSupport, hconf.samplVars, toFinset_map_succ]
    rfl
  refine ⟨hindep, ?_⟩
  rw [h.optionalIndepSupport, ← h.indepSupport, toFinset_map_succ, hindep]
  rcases hconf.optSamplVars with hopt | hopt
  · rw [hopt, Finset.image_empty, if_pos rfl]
  · rw [hopt]
    exact ite_self _

theorem HandsDirectly.wellFormed (hread : cnf.Reads I.one n dimacs declared)
    (hconf : Configured cnf (declared.getD (List.range n)) cnf')
    (h : HandsDirectly cnf'.toSimplifiedCNF inst) : inst.WellFormed := by
  obtain ⟨hindep, hopt⟩ := h.optionalIndepSupport_eq hconf
  have hvars : inst.vars = Finset.Icc 1 n := by
    rw [GanakInstance.vars, h.newVars, hconf.nVars, hread.nVars]
  refine ⟨?_, by rw [hindep, hopt], ?_⟩
  · intro cl hcl l hl
    rw [h.irredClauses, h.redClauses, hconf.clauses, hconf.redClauses, hread.clauses,
      hread.redClauses, List.map_nil, List.append_nil, List.map_map] at hcl
    obtain ⟨ds, hds, rfl⟩ := List.mem_map.mp hcl
    obtain ⟨l', hl', rfl⟩ := List.mem_map.mp hl
    obtain ⟨d, hd, rfl⟩ := List.mem_map.mp hl'
    have hrange := hread.range ds hds d hd
    rw [hvars, Finset.mem_Icc]
    show 1 ≤ d.natAbs - 1 + 1 ∧ d.natAbs - 1 + 1 ≤ n
    omega
  · intro v hv
    rw [hopt, Finset.mem_image] at hv
    obtain ⟨u, hu, rfl⟩ := hv
    have hlt := samplingScope_lt hread u (List.mem_toFinset.mp hu)
    rw [hvars, Finset.mem_Icc]
    omega

theorem HandsDirectly.projectedCount {R : Type} [CommSemiring R] {ω : F → R}
    (hread : cnf.Reads I.one n dimacs declared)
    (hconf : Configured cnf (declared.getD (List.range n)) cnf')
    (h : HandsDirectly cnf'.toSimplifiedCNF inst) {W : Nat → Bool → R}
    (hW : ∀ v ∈ inst.indepSupport, ∀ b, (inst.weight? ⟨v, b⟩).elim 1 ω = W v b) :
    inst.projectedCount ω = dimacsCount W (samplingScope n declared) dimacs := by
  obtain ⟨hindep, hopt⟩ := h.optionalIndepSupport_eq hconf
  have hsat : inst.sat = fun τ => cnfHolds τ dimacs := by
    funext τ
    rw [sat_handsDirectly h, ← sat_reads hread, SimplifiedCNF.sat, SimplifiedCNF.sat,
      hconf.clauses, hconf.redClauses]
  rw [GanakInstance.projectedCount, hopt, hsat, dimacsCount]
  exact count_congr (fun v hv b => hW v (by rwa [hindep]) b) fun _ _ => rfl

end

theorem directInstance_handsDirectly (K : Klay) (cnf : SimplifiedCNF FCircuit) :
    HandsDirectly cnf (directInstance K cnf) := ⟨rfl, rfl, rfl, rfl, rfl⟩

theorem weight?_directInstance (K : Klay) (cnf : SimplifiedCNF FCircuit) {v : Nat}
    (hv : v ∈ (directInstance K cnf).indepSupport) (b : Bool) :
    (directInstance K cnf).weight? ⟨v, b⟩ =
      some (FGenCircuit.litField K (if b then (v : Int) else -(v : Int))) := by
  apply GanakInstance.weight?_eq_some
  · refine List.mem_flatMap.mpr ⟨v, mem_inOrder.mpr hv, ?_⟩
    cases b with
    | true => exact List.mem_cons_self
    | false => exact List.mem_cons_of_mem _ List.mem_cons_self
  · intro y hy
    exact (litWeightCalls_spec hy).2

theorem weight?_directCountInstance (weightedCounting : Bool) (cnf : SimplifiedCNF FCount)
    (l : GanakLit) :
    ((directCountInstance weightedCounting cnf).weight? l).elim 1 FCount.val = 1 := by
  cases hw : (directCountInstance weightedCounting cnf).weight? l with
  | none => rfl
  | some x =>
    have hmem := GanakInstance.mem_of_weight? hw
    cases weightedCounting with
    | false => exact absurd hmem List.not_mem_nil
    | true =>
      obtain ⟨v, -, hcall⟩ := List.mem_flatMap.mp hmem
      rcases List.mem_pair.mp hcall with heq | heq
      · cases heq
        rfl
      · cases heq
        rfl

section

variable {K : Klay} {L : GanakLibrary FCircuit} {cnfFile : String} {file : Except String String}
  {n : Nat} {dimacs : List (List Int)} {declared : Option (List Nat)}

/-- One node has the weighted counts for all weights. -/
theorem compileGanak_node (hL : L.Documented (FGenCircuit.impl K fun _ => none))
    {cnf : ArjunCNF FCircuit} (hfile : readDimacsInputFile L cnfFile file = .ok cnf)
    (hread : cnf.Reads (FGenCircuit.one K) n dimacs declared) (ganakOpts : GanakOptions)
    (arjunOpts : ArjunOptions)
    (hopts : arjunOpts.allIndep = true → ∀ v < n, v ∈ samplingScope n declared) :
    ∃ node, compileFromCnfUsingGanak K L cnfFile file ganakOpts arjunOpts = .ok node ∧
      ∀ (R : Type) [CommSemiring R] (w : Nat → R) (W : Int → R),
        K.Evaluates (Node.sumProduct w) W →
          node.value w = dimacsCount (dimacsWeight W) (samplingScope n declared) dimacs := by
  have hcount := hL.count (makeGanakConf L.conf ganakOpts)
  rw [compileFromCnfUsingGanak, hfile]
  show ∃ node, (if arjunOpts.doArjun = true then _ else _) = Except.ok node ∧ _
  split
  next =>
    refine ⟨_, rfl, fun R _ w W hK => ?_⟩
    have hω := circuit_interprets hK fun _ => none
    obtain ⟨hall, htotal⟩ := configureArjun_leavesTotal hL.arjun hread hopts hK hω
    rw [value_compileArjun hK, ← htotal]
    refine answer_total impl_plain hω (fun _ => rfl) ?_ (hcount _)
    exact runArjun_leavesTotal hL.arjun _ _ hall
  next =>
    refine ⟨_, rfl, fun R _ w W hK => ?_⟩
    have hω := circuit_interprets hK fun _ => none
    obtain ⟨hconf, -⟩ := configured_samplVars hL.arjun hread
    have hdirect := directInstance_handsDirectly K (if cnf.samplVarsSet then cnf else
      L.arjun.setSamplVars cnf (List.range cnf.nVars)).toSimplifiedCNF
    have hwf := hdirect.wellFormed (I := FGenCircuit.impl K fun _ => none) hread hconf
    have hanswer := (hcount _ hwf).interpret impl_plain hω
    rw [hdirect.projectedCount (I := FGenCircuit.impl K fun _ => none) hread hconf
      (W := dimacsWeight W)] at hanswer
    · rw [← hanswer, compileDirect]
      split
      next => rfl
      next => rfl
    · intro v hv b
      rw [weight?_directInstance K _ hv]
      exact value_literal hK _

/-- With and without Arjun, the node that is returned has as its value the weighted count of the CNF
over its sampling variables, in every commutative semiring and for all weights of the literals.
The options may be anything, but `all_indep` only where all variables are sampling variables: it
makes them so. -/
theorem compileFromCnfUsingGanak_value {R : Type} [CommSemiring R] {w : Nat → R} {W : Int → R}
    (hK : K.Evaluates (Node.sumProduct w) W) (hL : L.Documented (FGenCircuit.impl K fun _ => none))
    {cnf : ArjunCNF FCircuit} (hfile : readDimacsInputFile L cnfFile file = .ok cnf)
    (hread : cnf.Reads (FGenCircuit.one K) n dimacs declared) (ganakOpts : GanakOptions)
    (arjunOpts : ArjunOptions)
    (hopts : arjunOpts.allIndep = true → ∀ v < n, v ∈ samplingScope n declared) :
    ∃ node, compileFromCnfUsingGanak K L cnfFile file ganakOpts arjunOpts = .ok node ∧
      node.value w = dimacsCount (dimacsWeight W) (samplingScope n declared) dimacs := by
  obtain ⟨node, hnode, hvalue⟩ := compileGanak_node hL hfile hread ganakOpts arjunOpts hopts
  exact ⟨node, hnode, hvalue R w W hK⟩

end

/-- Two variables that differ, and a free one. -/
def xorDimacs : List (List Int) := [[1, 2], [-1, -2]]

def xorText : String := "p cnf 3 2\n1 2 0\n-1 -2 0\n"

def xorCnf {F : Type*} (one : F) (declared : Option (List Nat)) : ArjunCNF F where
  nVars := 3
  clauses := xorDimacs.map fun cl => cl.map parseLit
  redClauses := []
  samplVarsSet := declared.isSome
  samplVars := declared.getD []
  optSamplVars := []
  weights _ := none
  multiplierWeight := one
  optSamplVarsSet := false
  weighted := false

def parseXor {F : Type*} (one : F) (declared : Option (List Nat)) (content : String) :
    Option (ArjunCNF F) :=
  if content = xorText then some (xorCnf one declared) else none

theorem xorCnf_reads {F : Type*} (one : F) {declared : Option (List Nat)}
    (h : ∀ v ∈ declared.getD [], v < 3) :
    (xorCnf one declared).Reads one 3 xorDimacs declared :=
  ⟨by decide, rfl, rfl, rfl, rfl, rfl, h, .inl rfl, rfl, rfl⟩

theorem dependsOn_xor : DependsOn (fun τ => cnfHolds τ xorDimacs)
    (((samplingScope 3 none).image (· + 1) : Finset Nat) : Set Nat) :=
  dependsOn_cnfHolds (n := 3) (by decide)

theorem xor_compiled : ∃ node,
    compileFromCnfUsingGanak Klay.reference
      (GanakLibrary.reference (FGenCircuit.impl Klay.reference fun _ => none)
        (parseXor (FGenCircuit.one Klay.reference) none)) "xor.cnf" (.ok xorText) {} {} =
      .ok node ∧ node.value (fun _ => (1 : ℕ)) = 4 := by
  have hfile : readDimacsInputFile
      (GanakLibrary.reference (FGenCircuit.impl Klay.reference fun _ => none)
        (parseXor (FGenCircuit.one Klay.reference) none)) "xor.cnf" (.ok xorText) =
      .ok (xorCnf (FGenCircuit.one Klay.reference) none) := rfl
  obtain ⟨node, hnode, hvalue⟩ := compileFromCnfUsingGanak_value
    (Klay.reference_evaluates (sumProduct_absorbs fun _ => (1 : ℕ)))
    (library_documented _ (parseXor (FGenCircuit.one Klay.reference) none)) hfile
    (xorCnf_reads _ (by decide)) {} {} (fun h => by cases h)
  refine ⟨node, hnode, ?_⟩
  rw [hvalue, dimacsCount, project_of_dependsOn dependsOn_xor]
  exact (count_one _ _).trans (by decide)

section

variable {I : Impl GanakLit FCount} {A : Arjun FCount} {cnf : ArjunCNF FCount} {n : Nat}
  {dimacs : List (List Int)} {declared : Option (List Nat)} {arjunOpts : ArjunOptions}

/-- As many sampling variables as there are variables are all of them. -/
theorem samplingScope_of_card {vs : List Nat} (hread : cnf.Reads I.one n dimacs (some vs))
    (hcard : cnf.samplVars.toFinset.card = cnf.nVars) :
    ∀ v < n, v ∈ samplingScope n (some vs) := by
  intro v hv
  have hsampl : cnf.samplVars = vs := hread.samplVars
  have hsub : cnf.samplVars.toFinset ⊆ Finset.range n := fun u hu =>
    Finset.mem_range.mpr (hread.samplVars_lt u (List.mem_toFinset.mp hu))
  have hall : cnf.samplVars.toFinset = Finset.range n :=
    Finset.eq_of_subset_of_card_le hsub (by rw [hcard, hread.nVars, Finset.card_range])
  show v ∈ vs.toFinset
  rw [← hsampl, hall]
  exact Finset.mem_range.mpr hv

/-- The sampling variables ConfigureArjunForCounting leaves, and what it says of them. -/
theorem configured_forCounting (hA : A.Documented I) (hread : cnf.Reads I.one n dimacs declared)
    (hopts : arjunOpts.allIndep = true → ∀ v < n, v ∈ samplingScope n declared) :
    ∃ cnf₁ etofConf, (∀ weighted, configureArjunForCounting A weighted cnf
        (makeArjunConf arjunOpts).etofConf =
      (if weighted then setLitWeights A (fun _ => FGenCount.one) (fun _ => FGenCount.one)
        (A.setWeighted cnf₁ true) else cnf₁, etofConf)) ∧
      Configured cnf (declared.getD (List.range n)) cnf₁ ∧ cnf₁.weights = cnf.weights ∧
      (etofConf.allIndep = true → ∀ v < n, v ∈ samplingScope n declared) := by
  cases declared with
  | none =>
    have hset : cnf.samplVarsSet = false := hread.samplVarsSet
    obtain ⟨hconf, hweights⟩ := configured_samplVars hA hread
    rw [hset] at hconf hweights
    refine ⟨_, ⟨true⟩, fun weighted => ?_, hconf, hweights, fun _ v hv =>
      mem_samplingScope_none hv⟩
    simp only [configureArjunForCounting, hset]
    rfl
  | some vs =>
    have hset : cnf.samplVarsSet = true := hread.samplVarsSet
    have hsampl : cnf.samplVars = vs := hread.samplVars
    have hlt : ∀ v ∈ cnf.samplVars, v < cnf.nVars := by
      rw [hread.nVars]
      exact hread.samplVars_lt
    obtain ⟨opt, hopt, heq⟩ := hA.setOptSamplVars cnf cnf.samplVars hlt
    have hconf : Configured cnf vs
        (if cnf.optSamplVarsSet then cnf else A.setOptSamplVars cnf cnf.samplVars) ∧
        (if cnf.optSamplVarsSet then cnf else A.setOptSamplVars cnf cnf.samplVars).weights =
          cnf.weights := by
      split
      next =>
        have hkept := configured_samplVars hA hread
        rwa [hset] at hkept
      next =>
        rw [heq]
        exact ⟨⟨rfl, rfl, rfl, hsampl, .inr (hopt.trans (by rw [hsampl])), rfl⟩, rfl⟩
    refine ⟨_, if cnf.samplVars.toFinset.card = cnf.nVars then ⟨true⟩ else ⟨arjunOpts.allIndep⟩,
      fun weighted => ?_, hconf.1, hconf.2, ?_⟩
    · simp only [configureArjunForCounting, hset]
      rfl
    · split
      next hcard => exact fun _ => samplingScope_of_card hread hcard
      next => exact hopts

theorem configureArjunForCounting_leavesTotal (hA : A.Documented I)
    (hread : cnf.Reads I.one n dimacs declared)
    (hopts : arjunOpts.allIndep = true → ∀ v < n, v ∈ samplingScope n declared)
    (hω : I.Interprets FCount.val) (weighted : Bool) :
    let r := configureArjunForCounting A weighted cnf (makeArjunConf arjunOpts).etofConf
    (r.2.allIndep = true → r.1.AllIndep) ∧
      r.1.total FCount.val = dimacsCount (fun _ _ => 1) (samplingScope n declared) dimacs := by
  obtain ⟨cnf₁, etofConf, heq, hconf, hweights, hall⟩ := configured_forCounting hA hread hopts
  dsimp only
  rw [heq]
  cases weighted with
  | false =>
    refine ⟨fun h => hconf.allIndep hread (hall h), hconf.total hω hread fun v hv b => ?_⟩
    show (cnf₁.weights v).elim 1 _ = 1
    rw [hweights, hread.weights]
    rfl
  | true =>
    obtain ⟨hconf', hone⟩ := hconf.setLitWeights hA (by rw [hread.nVars]
                                                        exact samplingScope_lt hread)
      (fun _ => FGenCount.one) (fun _ => FGenCount.one)
    refine ⟨fun h => hconf'.allIndep hread (hall h), hconf'.total hω hread fun v hv b => ?_⟩
    rw [SimplifiedCNF.litWeight, hone v hv]
    cases b with
    | true => rfl
    | false => rfl

end

section

variable {L : GanakLibrary FCount} {cnfFile : String} {file : Except String String} {n : Nat}
  {dimacs : List (List Int)} {declared : Option (List Nat)}

/-- Weighted or not, with and without Arjun, the count is the number of assignments of the sampling
variables that can be completed to a model of the CNF. As for compiling, `all_indep` is set only
where all variables are sampling variables. -/
theorem countFromCnfUsingGanak_card (hL : L.Documented (FGenCount.impl fun _ => none))
    {cnf : ArjunCNF FCount} (hfile : readDimacsInputFile L cnfFile file = .ok cnf)
    (hread : cnf.Reads FGenCount.one n dimacs declared) (ganakOpts : GanakOptions)
    (arjunOpts : ArjunOptions) (weightedCounting : Bool)
    (hopts : arjunOpts.allIndep = true → ∀ v < n, v ∈ samplingScope n declared) :
    countFromCnfUsingGanak L cnfFile file ganakOpts arjunOpts weightedCounting = .ok
      ((((samplingScope n declared).image (· + 1)).powerset.filter fun A =>
        project ((samplingScope n declared).image (· + 1)) (fun τ => cnfHolds τ dimacs)
          (indicator A) = true).card : Int) := by
  have hω := count_interprets fun _ => none
  have hcount := hL.count (makeGanakConf L.conf ganakOpts)
  have hcard := count_one (R := Int) ((samplingScope n declared).image (· + 1))
    (project ((samplingScope n declared).image (· + 1)) fun τ => cnfHolds τ dimacs)
  rw [countFromCnfUsingGanak, hfile, ← hcard]
  show (if arjunOpts.doArjun = true then _ else _) = Except.ok (dimacsCount (fun _ _ => 1) _ _)
  split
  next =>
    obtain ⟨hall, htotal⟩ := configureArjunForCounting_leavesTotal hL.arjun hread hopts hω
      weightedCounting
    refine congrArg Except.ok ?_
    rw [countArjun_eq, ← htotal]
    refine answer_total FGenCount.impl_plain hω (fun _ => rfl) ?_ (hcount _)
    exact runArjun_leavesTotal hL.arjun _ _ hall
  next =>
    obtain ⟨hconf, -⟩ := configured_samplVars hL.arjun hread
    have hdirect : HandsDirectly (if cnf.samplVarsSet then cnf else
        L.arjun.setSamplVars cnf (List.range cnf.nVars)).toSimplifiedCNF
        (directCountInstance weightedCounting (if cnf.samplVarsSet then cnf else
          L.arjun.setSamplVars cnf (List.range cnf.nVars)).toSimplifiedCNF) :=
      ⟨rfl, rfl, rfl, rfl, rfl⟩
    have hwf := hdirect.wellFormed (I := FGenCount.impl fun _ => none) hread hconf
    have hanswer := (hcount _ hwf).interpret FGenCount.impl_plain hω
    rw [hdirect.projectedCount (I := FGenCount.impl fun _ => none) hread hconf
      (W := fun _ _ => 1) fun _ _ _ => weight?_directCountInstance weightedCounting _ _] at hanswer
    exact congrArg Except.ok hanswer

end

theorem xor_counted :
    countFromCnfUsingGanak (GanakLibrary.reference (FGenCount.impl fun _ => none)
      (parseXor FGenCount.one none)) "xor.cnf" (.ok xorText) {} {} true = .ok 4 := by
  have hfile : readDimacsInputFile (GanakLibrary.reference (FGenCount.impl fun _ => none)
      (parseXor FGenCount.one none)) "xor.cnf" (.ok xorText) =
      .ok (xorCnf FGenCount.one none) := rfl
  have hcount := countFromCnfUsingGanak_card
    (library_documented _ (parseXor FGenCount.one none)) hfile (xorCnf_reads _ (by decide)) {} {}
    true (fun h => by cases h)
  rw [hcount, project_of_dependsOn dependsOn_xor]
  decide

end Kompyle
