import Kompyle.CompileSdd
import Kompyle.D4Count
import Kompyle.EquivalenceCheck
import Kompyle.GateReference
import Kompyle.NodeReadings
import Kompyle.PipelineCount

namespace Kompyle

open WeightedCount

/-- What the compilers are linked against: d4 on gates and on CNF files, Arjun and Ganak, and
pysdd, which gives an SDD for a file and a type of vtree. -/
structure Backends where
  gates : Prepared → CallTree
  d4 : D4Options → String → CallTree
  ganak : GanakLibrary FCircuit
  sdd : String → String → SddGraph × Nat

def compileFromCnfUsingSdd (K : Klay) (fromCnfFile : String → String → SddGraph × Nat)
    (fuel : Nat) (cnfFile : String) (vtreeType : String) : Option (Except Nat Node) :=
  let (manager, root) := fromCnfFile cnfFile vtreeType
  compileFromSdd K manager fuel root

/-- A compiler of CNF files, with the options it is called with. -/
inductive CnfCompiler
  | d4v2 (opts : D4Options)
  | ganak (ganakOpts : GanakOptions) (arjunOpts : ArjunOptions)
  | sdd (vtreeType : String)

/-- The compiler returns the node. -/
def CnfCompiler.Returns (K : Klay) (B : Backends) (cnfFile : String) (file : Except String String) :
    CnfCompiler → Node → Prop
  | d4v2 opts, n => compileFromCnfUsingD4v2 K B.d4 cnfFile opts = n
  | ganak ganakOpts arjunOpts, n =>
    compileFromCnfUsingGanak K B.ganak cnfFile file ganakOpts arjunOpts = .ok n
  | sdd vtreeType, n =>
    ∃ N, ∀ fuel, N ≤ fuel → compileFromCnfUsingSdd K B.sdd fuel cnfFile vtreeType = some (.ok n)

/-- What is relied on outside the repository, whatever is compiled. -/
structure Backends.Documented (B : Backends) (K : Klay) : Prop where
  gates : ∀ c gf, gf.WellFormed →
    (prepareGatesFormula c gf).IsRun (B.gates (prepareGatesFormula c gf))
  ganak : B.ganak.Documented (FGenCircuit.impl K fun _ => none)

/-- All of them read the same CNF in the file. -/
structure Backends.Reads (B : Backends) (K : Klay) (cnfFile : String)
    (file : Except String String) (n : Nat) (dimacs : List (List Int)) : Prop where
  d4 : ∀ opts, (B.d4 opts cnfFile).RunsOn n dimacs
  ganak : ∃ cnf, readDimacsInputFile B.ganak cnfFile file = .ok cnf ∧
    cnf.Reads (FGenCircuit.one K) n dimacs none
  sdd : ∀ vtreeType τ, (B.sdd cnfFile vtreeType).1.denote τ (B.sdd cnfFile vtreeType).2 =
    cnfHolds τ dimacs

/-- A root and the function it is for. -/
abbrev Root := Node × ((Nat → Bool) → Bool)

/-- One circuit, into which CNFs are compiled by any of the compilers in any order, and whose
roots are joined by further nodes. -/
inductive Shared (K : Klay) (B : Backends) : Circuit → List Root → Prop
  | fresh : Shared K B Circuit.fresh []
  | gates {c c' : Circuit} {roots : List Root} {nVars : Nat} {clauses : List (List Int)} {n : Node}
      (h : Shared K B c roots) (hrange : InRange nVars clauses)
      (hn : compileGfInto K B.gates c nVars clauses = some (c', n)) :
      Shared K B c' (roots ++ [(n, fun τ => cnfHolds τ clauses)])
  | cnf {c : Circuit} {roots : List Root} {cnfFile : String} {file : Except String String}
      {nVars : Nat} {dimacs : List (List Int)} {compiler : CnfCompiler} {n : Node}
      (h : Shared K B c roots) (hfile : B.Reads K cnfFile file nVars dimacs)
      (hn : compiler.Returns K B cnfFile file n) :
      Shared K B c (roots ++ [(n, fun τ => cnfHolds τ dimacs)])
  | orNode {c : Circuit} {roots xs : List Root} (h : Shared K B c roots) (hxs : xs ⊆ roots) :
      Shared K B c (roots ++ [(K.orNode (xs.map Prod.fst), fun τ => xs.any fun x => x.2 τ)])
  | andNode {c : Circuit} {roots xs : List Root} (h : Shared K B c roots) (hxs : xs ⊆ roots) :
      Shared K B c (roots ++ [(K.andNode (xs.map Prod.fst), fun τ => xs.all fun x => x.2 τ)])

section

variable {K : Klay} {σ τ : Nat → Bool} {n : Nat} {dimacs : List (List Int)}

theorem denote_d4v2 (hS : K.Simplifies) (hK : K.Evaluates (Node.boolean σ) (literalHolds τ))
    {t : CallTree} (ht : t.RunsOn n dimacs) :
    (t.run (klayCircuitOperation K [])).denote σ = cnfHolds τ dimacs := by
  have h0 : 0 ∉ Finset.Icc 1 n := by simp
  rw [← ht.sat, Bool.eq_iff_iff]
  constructor
  · intro h
    obtain ⟨τ', hagree, hsat⟩ := satisfiable_of_denote hS hK ht.scope h0 h
    obtain rfl : τ' = τ := funext fun v => hagree v rfl
    exact hsat
  · exact denote_of_sat hK ht.scope h0 fun _ _ => rfl

theorem image_samplingScope (n : Nat) :
    (samplingScope n none).image (· + 1) = Finset.Icc 1 n := by
  ext v
  simp only [samplingScope, Option.getD_none, Finset.mem_image, List.mem_toFinset, List.mem_range,
    Finset.mem_Icc]
  constructor
  · rintro ⟨u, hu, rfl⟩
    omega
  · intro hv
    exact ⟨v - 1, by omega, by omega⟩

/-- Over the weights of one assignment, the count is the value of the CNF. -/
theorem dimacsCount_truth (hrange : InRange n dimacs) :
    (dimacsCount (dimacsWeight fun l => Truth.mk (literalHolds τ l)) (samplingScope n none)
      dimacs).holds = cnfHolds τ dimacs := by
  have hdep := dependsOn_cnfHolds hrange
  have hweight : ∀ v ∈ Finset.Icc 1 n, ∀ b,
      dimacsWeight (fun l => Truth.mk (literalHolds τ l)) v b =
        if τ v = b then (1 : Truth) else 0 := by
    intro v hv b
    have hzero : v ≠ 0 := by
      have h1 := (Finset.mem_Icc.mp hv).1
      omega
    cases b with
    | true => cases hτ : τ v <;> simp [dimacsWeight, literalHolds, hτ] <;> rfl
    | false => cases hτ : τ v <;> simp [dimacsWeight, literalHolds, hτ, hzero] <;> rfl
  rw [dimacsCount, image_samplingScope, project_of_dependsOn hdep,
    count_congr hweight fun _ _ => rfl, count_single hdep]
  cases cnfHolds τ dimacs <;> rfl

end

section

variable {K : Klay} {B : Backends}

/-- Every compiler returns, whatever its options, and its node has the function of the CNF. -/
theorem compiler_returns (hS : K.Simplifies) (hB : B.Documented K) {cnfFile : String}
    {file : Except String String} {n : Nat} {dimacs : List (List Int)}
    (h : B.Reads K cnfFile file n dimacs) (compiler : CnfCompiler) :
    ∃ node, compiler.Returns K B cnfFile file node ∧
      ∀ σ τ, K.Evaluates (Node.boolean σ) (literalHolds τ) →
        node.denote σ = cnfHolds τ dimacs := by
  cases compiler with
  | d4v2 opts => exact ⟨_, rfl, fun σ τ hK => denote_d4v2 hS hK (h.d4 opts)⟩
  | ganak ganakOpts arjunOpts =>
    obtain ⟨cnf, hfile, hread⟩ := h.ganak
    obtain ⟨node, hnode, hvalue⟩ := compileGanak_node hB.ganak hfile hread ganakOpts arjunOpts
      fun _ _ hv => mem_samplingScope_none hv
    refine ⟨node, hnode, fun σ τ hK => ?_⟩
    rw [← Node.value_truth, hvalue _ _ _ (evaluates_truth hK), dimacsCount_truth hread.range]
  | sdd vtreeType =>
    obtain ⟨node, N, hnode, hsame⟩ := compileFromSdd_spec sameFunction_builds
      (B.sdd cnfFile vtreeType).2
    exact ⟨node, ⟨N, hnode⟩, fun σ τ hK => (hsame σ τ hK).trans (h.sdd vtreeType τ)⟩

theorem CnfCompiler.Returns.unique {cnfFile : String} {file : Except String String}
    {compiler : CnfCompiler} {n m : Node} (hn : compiler.Returns K B cnfFile file n)
    (hm : compiler.Returns K B cnfFile file m) : n = m := by
  cases compiler with
  | d4v2 opts => exact hn.symm.trans hm
  | ganak ganakOpts arjunOpts => exact Except.ok.inj (hn.symm.trans hm)
  | sdd vtreeType =>
    obtain ⟨N, hn⟩ := hn
    obtain ⟨M, hm⟩ := hm
    have heq := (hn (max N M) (le_max_left N M)).symm.trans (hm (max N M) (le_max_right N M))
    exact Except.ok.inj (Option.some.inj heq)

/-- The invariant: the names are numbers without gaps, and every root has its function. -/
structure Agrees (K : Klay) (c : Circuit) (roots : List Root) : Prop where
  names : ∃ k, Numerals c k
  roots : ∀ x ∈ roots, ∀ σ τ, K.Evaluates (Node.boolean σ) (literalHolds τ) →
    x.1.denote σ = x.2 τ

theorem Agrees.append {c c' : Circuit} {roots : List Root} (h : Agrees K c roots)
    (hnames : ∃ k, Numerals c' k) {x : Root}
    (hx : ∀ σ τ, K.Evaluates (Node.boolean σ) (literalHolds τ) → x.1.denote σ = x.2 τ) :
    Agrees K c' (roots ++ [x]) := by
  refine ⟨hnames, fun y hy => ?_⟩
  rcases List.mem_append.mp hy with hy | hy
  · exact h.roots y hy
  · obtain rfl := List.mem_singleton.mp hy
    exact hx

theorem Agrees.map_denote {c : Circuit} {roots xs : List Root} (h : Agrees K c roots)
    (hxs : xs ⊆ roots) {σ τ : Nat → Bool}
    (hK : K.Evaluates (Node.boolean σ) (literalHolds τ)) :
    (xs.map Prod.fst).map (fun n => n.denote σ) = xs.map fun x => x.2 τ := by
  rw [List.map_map]
  exact List.map_congr_left fun x hx => h.roots x (hxs hx) σ τ hK

theorem agrees_shared (hS : K.Simplifies) (hden : K.Denotes) (hneg : K.Complements)
    (hB : B.Documented K) {c : Circuit} {roots : List Root} (h : Shared K B c roots) :
    Agrees K c roots := by
  induction h with
  | fresh => exact ⟨⟨0, numerals_fresh⟩, by simp⟩
  | gates _ hrange hn ih =>
    obtain ⟨k, hnames⟩ := ih.names
    obtain ⟨⟨k', -, hnames'⟩, -, hdenote⟩ := compileGfInto_some hS hden hneg hnames hrange
      (fun gf _ hw => hB.gates _ gf hw) hn
    exact ih.append ⟨k', hnames'⟩ hdenote
  | cnf _ hfile hn ih =>
    obtain ⟨node, hnode, hdenote⟩ := compiler_returns hS hB hfile _
    obtain rfl := hnode.unique hn
    exact ih.append ih.names hdenote
  | orNode _ hxs ih =>
    refine ih.append ih.names fun σ τ hK => ?_
    have hmap := congrArg (List.any · id) (ih.map_denote hxs hK)
    simp only [List.any_map, Function.id_comp] at hmap
    dsimp only
    rw [denote_or hK, List.any_map]
    exact hmap
  | andNode _ hxs ih =>
    refine ih.append ih.names fun σ τ hK => ?_
    have hmap := congrArg (List.all · id) (ih.map_denote hxs hK)
    simp only [List.all_map, Function.id_comp] at hmap
    dsimp only
    rw [denote_and hK, List.all_map]
    exact hmap

/-- A CNF with a variable or a clause can always be compiled next. -/
theorem shared_gates {c : Circuit} {roots : List Root} (h : Shared K B c roots) (nVars : Nat)
    (clauses : List (List Int)) (hrange : InRange nVars clauses)
    (hc : ¬ (clauses = [] ∧ nVars = 0)) :
    ∃ c' n, Shared K B c' (roots ++ [(n, fun τ => cnfHolds τ clauses)]) := by
  cases hn : compileGfInto K B.gates c nVars clauses with
  | none => exact absurd ((compileGfInto_none_iff _ _ _ _ _).mp hn) hc
  | some r => exact ⟨r.1, r.2, .gates h hrange hn⟩

theorem shared_cnf (hS : K.Simplifies) (hB : B.Documented K) {c : Circuit} {roots : List Root}
    (h : Shared K B c roots) {cnfFile : String} {file : Except String String} {n : Nat}
    {dimacs : List (List Int)} (hfile : B.Reads K cnfFile file n dimacs)
    (compiler : CnfCompiler) :
    ∃ node, Shared K B c (roots ++ [(node, fun τ => cnfHolds τ dimacs)]) := by
  obtain ⟨node, hnode, -⟩ := compiler_returns hS hB hfile compiler
  exact ⟨node, .cnf h hfile hnode⟩

end

def clauseText : String := "p cnf 2 1\n1 2 0\n"

def clauseCnf : ArjunCNF FCircuit where
  nVars := 2
  clauses := [[1, 2]].map fun cl => cl.map parseLit
  redClauses := []
  samplVarsSet := false
  samplVars := []
  optSamplVars := []
  weights _ := none
  multiplierWeight := FGenCircuit.one Klay.reference
  optSamplVarsSet := false
  weighted := false

/-- The clause as an SDD: `x1`, or `x2` where `x1` is false. -/
def clauseGraph : SddGraph where
  node
    | 0 => .literal 1
    | 1 => .literal (-1)
    | 2 => .literal 2
    | 3 => .decision [(0, 4), (1, 2)]
    | _ => .true
  rank id := if id = 3 then 1 else 0
  acyclic id c hc := by
    match id with
    | 0 | 1 | 2 | _ + 4 => simp [SddNode.children] at hc
    | 3 =>
      simp [SddNode.children] at hc
      rcases hc with rfl | rfl | rfl | rfl <;> decide

noncomputable def clauseBackends : Backends where
  gates := Prepared.reference
  d4 _ _ := CallTree.clauseRun
  ganak := GanakLibrary.reference (FGenCircuit.impl Klay.reference fun _ => none)
    fun content => if content = clauseText then some clauseCnf else none
  sdd _ _ := (clauseGraph, 3)

theorem clauseBackends_documented : clauseBackends.Documented Klay.reference where
  gates c gf _ := Prepared.reference_isRun (prepareGatesFormula_spec c gf).2.2
  ganak := library_documented _ _

theorem clauseRun_runsOn : CallTree.clauseRun.RunsOn 2 [[1, 2]] where
  scope := CallTree.clauseRun_hasScope
  deterministic := CallTree.clauseRun_deterministic
  sat τ := by
    have hsat : CallTree.clauseRun.sat τ = (τ 1 || (!τ 1 && τ 2)) := by
      simp [CallTree.clauseRun, CallTree.sat, satOperation, DataBranch.unitsHold, Lit.holds]
    have hcnf : cnfHolds τ [[1, 2]] = (τ 1 || τ 2) := by
      simp [cnfHolds, literalHolds]
    rw [hsat, hcnf]
    cases τ 1 <;> rfl

theorem clauseBackends_reads :
    clauseBackends.Reads Klay.reference "or.cnf" (.ok clauseText) 2 [[1, 2]] where
  d4 _ := clauseRun_runsOn
  ganak := ⟨clauseCnf, rfl, by decide, rfl, rfl, rfl, rfl, rfl, by decide, .inl rfl, rfl, rfl⟩
  sdd _ τ := by
    have hroot : clauseGraph.node 3 = .decision [(0, 4), (1, 2)] := rfl
    have hdenote : clauseGraph.denote τ 3 = (literalHolds τ 1 && true ||
        (literalHolds τ (-1) && literalHolds τ 2 || false)) := by
      rw [SddGraph.denote_decision hroot]
      simp only [List.any_cons, List.any_nil]
      rw [SddGraph.denote_literal (l := 1) rfl, SddGraph.denote_true rfl,
        SddGraph.denote_literal (l := -1) rfl, SddGraph.denote_literal (l := 2) rfl]
    show clauseGraph.denote τ 3 = _
    rw [hdenote]
    cases h₁ : τ 1 <;> cases h₂ : τ 2 <;> simp [cnfHolds, literalHolds, h₁, h₂]

end Kompyle
