import Kompyle.FieldCircuit
import Kompyle.GanakInstance
import Kompyle.KlayReference
import Mathlib.Tactic.Ring

namespace Kompyle

open WeightedCount

def parseLit (d : Int) : CmsLit := ⟨d.natAbs - 1, d < 0⟩

def cnfHolds (τ : Nat → Bool) (cnf : List (List Int)) : Bool :=
  cnf.all fun cl => cl.any (literalHolds τ)

/-- What ReadDimacsInputFile makes of an unweighted CNF over the variables 1 to n that names no
sampling variables. -/
structure SimplifiedCNF.Reads {F : Type*} (cnf : SimplifiedCNF F) (n : Nat)
    (dimacs : List (List Int)) : Prop where
  range : ∀ cl ∈ dimacs, ∀ d ∈ cl, 1 ≤ d.natAbs ∧ d.natAbs ≤ n
  nVars : cnf.nVars = n
  clauses : cnf.clauses = dimacs.map fun cl => cl.map parseLit
  redClauses : cnf.redClauses = []
  samplVarsSet : cnf.samplVarsSet = false

/-- Arjun's `set_sampl_vars`: it sets the sampling variables and, as far as the hand-over goes,
at most the optional ones besides. -/
def SetsSamplVars {F : Type*} (setSamplVars : SimplifiedCNF F → List Nat → SimplifiedCNF F) :
    Prop :=
  ∀ cnf vs, (setSamplVars cnf vs).samplVars = vs ∧ (setSamplVars cnf vs).nVars = cnf.nVars ∧
    (setSamplVars cnf vs).clauses = cnf.clauses ∧
    (setSamplVars cnf vs).redClauses = cnf.redClauses

def litWeightCalls (K : Klay) (indeps : List Nat) : List (GanakLit × FCircuit) :=
  indeps.flatMap fun v =>
    [(⟨v, true⟩, FGenCircuit.litField K v), (⟨v, false⟩, FGenCircuit.litField K (-(v : Int)))]

def directInstance (K : Klay) (cnf : SimplifiedCNF FCircuit) : GanakInstance FCircuit :=
  let indeps := (cnf.samplVars.map (· + 1)).toFinset
  let optIndeps := (cnf.optSamplVars.map (· + 1)).toFinset
  let optIndeps := if optIndeps = ∅ then indeps else optIndeps
  { newVars := cnf.nVars
    indepSupport := indeps
    optionalIndepSupport := optIndeps
    irredClauses := cnf.clauses.map cmsToGanakCl
    redClauses := cnf.redClauses.map cmsToGanakCl
    litWeights := litWeightCalls K (inOrder indeps) }

/-- CompileFromCnfUsingGanak without Arjun, after the file has been read. `count` is Ganak. -/
def compileDirect (K : Klay)
    (setSamplVars : SimplifiedCNF FCircuit → List Nat → SimplifiedCNF FCircuit)
    (count : GanakInstance FCircuit → FCircuit) (cnf : SimplifiedCNF FCircuit) : FCircuit :=
  let cnf := if cnf.samplVarsSet then cnf else setSamplVars cnf (List.range cnf.nVars)
  count (directInstance K cnf)

def GanakInstance.modelSum {F R : Type*} [CommSemiring R] (inst : GanakInstance F)
    (ω : GanakLit → R) : R :=
  count (fun v b => ω ⟨v, b⟩) inst.vars inst.sat

theorem holds_parseLit (τ : Nat → Bool) {d : Int} (hd : 1 ≤ d.natAbs) :
    GanakLit.holds τ ⟨(parseLit d).var + 1, !(parseLit d).sign⟩ = literalHolds τ d := by
  have hvar : d.natAbs - 1 + 1 = d.natAbs := by omega
  have hsign : (!decide (d < 0)) = decide (0 ≤ d) := by
    by_cases h : d < 0
    · have : ¬ 0 ≤ d := by omega
      simp [h, this]
    · have : 0 ≤ d := by omega
      simp [h, this]
  show (τ (d.natAbs - 1 + 1) == !decide (d < 0)) = (τ d.natAbs == decide (0 ≤ d))
  rw [hvar, hsign]

section

variable {K : Klay} {setSamplVars : SimplifiedCNF FCircuit → List Nat → SimplifiedCNF FCircuit}
  {cnf : SimplifiedCNF FCircuit} {n : Nat} {dimacs : List (List Int)}

theorem dependsOn_cnfHolds (hrange : ∀ cl ∈ dimacs, ∀ d ∈ cl, 1 ≤ d.natAbs ∧ d.natAbs ≤ n) :
    DependsOn (fun τ => cnfHolds τ dimacs) ((Finset.Icc 1 n : Finset Nat) : Set Nat) := by
  intro σ τ hs
  dsimp only
  rw [cnfHolds, cnfHolds, Bool.eq_iff_iff, List.all_eq_true, List.all_eq_true]
  refine forall₂_congr fun cl hcl => ?_
  rw [List.any_eq_true, List.any_eq_true]
  refine exists_congr fun d => and_congr_right fun hd => ?_
  have hmem := Finset.mem_Icc.mpr (hrange cl hcl d hd)
  rw [literalHolds, literalHolds, hs d.natAbs (Finset.mem_coe.mpr hmem)]

theorem sat_directInstance (hset : SetsSamplVars setSamplVars) (hread : cnf.Reads n dimacs)
    (τ : Nat → Bool) :
    (directInstance K (setSamplVars cnf (List.range cnf.nVars))).sat τ = cnfHolds τ dimacs := by
  obtain ⟨-, -, hclauses, hred⟩ := hset cnf (List.range cnf.nVars)
  have hsat : (directInstance K (setSamplVars cnf (List.range cnf.nVars))).sat τ =
      (dimacs.map fun cl => cmsToGanakCl (cl.map parseLit)).all
        fun cl => cl.any (GanakLit.holds τ) := by
    simp [GanakInstance.sat, directInstance, hclauses, hred, hread.clauses, hread.redClauses,
      Function.comp_def]
  rw [hsat, cnfHolds, List.all_map, Bool.eq_iff_iff, List.all_eq_true, List.all_eq_true]
  refine forall₂_congr fun cl hcl => ?_
  show ((cl.map parseLit).map _).any (GanakLit.holds τ) = true ↔ _
  rw [List.map_map, List.any_map, List.any_eq_true, List.any_eq_true]
  refine exists_congr fun d => and_congr_right fun hd => ?_
  rw [← holds_parseLit τ (hread.range cl hcl d hd).1]
  rfl

theorem indeps_directInstance (hset : SetsSamplVars setSamplVars) (hread : cnf.Reads n dimacs) :
    (directInstance K (setSamplVars cnf (List.range cnf.nVars))).vars = Finset.Icc 1 n ∧
      (directInstance K (setSamplVars cnf (List.range cnf.nVars))).litWeights =
        litWeightCalls K (inOrder (Finset.Icc 1 n)) := by
  obtain ⟨hsampl, hn, -, -⟩ := hset cnf (List.range cnf.nVars)
  have hindeps : ((List.range n).map (· + 1)).toFinset = Finset.Icc 1 n := by
    ext v
    simp only [List.mem_toFinset, List.mem_map, List.mem_range, Finset.mem_Icc]
    constructor
    · rintro ⟨i, hi, rfl⟩
      omega
    · intro hv
      exact ⟨v - 1, by omega, by omega⟩
  rw [hread.nVars] at hsampl hn ⊢
  constructor
  · rw [GanakInstance.vars, directInstance, hn]
  · rw [directInstance, hsampl, hindeps, hn]

theorem litWeightCalls_spec {indeps : List Nat} {l : GanakLit} {x : FCircuit}
    (h : (l, x) ∈ litWeightCalls K indeps) : l.var ∈ indeps ∧
      x = FGenCircuit.litField K (if l.sign then l.var else -(l.var : Int)) := by
  obtain ⟨v, hv, hmem⟩ := List.mem_flatMap.mp h
  rcases List.mem_pair.mp hmem with heq | heq <;> cases heq <;> exact ⟨hv, rfl⟩

theorem denote_litWeight {σ τ : Nat → Bool} (hK : K.Evaluates (Node.boolean σ) (literalHolds τ))
    {l : GanakLit} {x : FCircuit}
    (h : (l, x) ∈ litWeightCalls K (inOrder (Finset.Icc 1 n))) :
    x.node.denote σ = true ↔ (if τ l.var = l.sign then 1 else 0) ≠ 0 := by
  obtain ⟨hv, rfl⟩ := litWeightCalls_spec h
  have hpos := (Finset.mem_Icc.mp (mem_inOrder.mp hv)).1
  have hden : (FGenCircuit.litField K (if l.sign then l.var else -(l.var : Int))).node.denote σ =
      literalHolds τ (if l.sign then l.var else -(l.var : Int)) := denote_literal hK _
  rw [hden, literalHolds]
  cases l.sign with
  | true => simp
  | false =>
    have hzero : l.var ≠ 0 := by omega
    simp [hzero]

/-- Ganak without Arjun compiles the formula it was given: the node that is returned is true
exactly under the models of the CNF, and the count is their number. -/
theorem compileDirect_correct (hset : SetsSamplVars setSamplVars) (hread : cnf.Reads n dimacs)
    {ganak : GanakInstance FCircuit → FCircuit} {prog : List (SemiringProgram.Op GanakLit)}
    {out : Nat}
    (hprog : SemiringProgram.eval (FGenCircuit.impl K
        (directInstance K (setSamplVars cnf (List.range cnf.nVars))).weight?) prog out =
      some (ganak (directInstance K (setSamplVars cnf (List.range cnf.nVars)))))
    (hvalue : ∀ (R : Type) [CommSemiring R] (ω : GanakLit → R),
      SemiringProgram.eval (SemiringProgram.semiring ω) prog out =
        some ((directInstance K (setSamplVars cnf (List.range cnf.nVars))).modelSum ω)) :
    (∀ σ τ, K.Evaluates (Node.boolean σ) (literalHolds τ) →
      ((compileDirect K setSamplVars ganak cnf).node.denote σ = true ↔
        cnfHolds τ dimacs = true)) ∧
    (compileDirect K setSamplVars ganak cnf).val =
      ((Finset.Icc 1 n).powerset.filter fun A => cnfHolds (indicator A) dimacs).card := by
  have hresult : compileDirect K setSamplVars ganak cnf =
      ganak (directInstance K (setSamplVars cnf (List.range cnf.nVars))) := by
    rw [compileDirect, hread.samplVarsSet]
    rfl
  obtain ⟨hvars, hcalls⟩ := indeps_directInstance (K := K) hset hread
  have hsat : (directInstance K (setSamplVars cnf (List.range cnf.nVars))).sat =
      fun τ => cnfHolds τ dimacs := funext (sat_directInstance hset hread)
  have hweight : ∀ l x,
      (directInstance K (setSamplVars cnf (List.range cnf.nVars))).weight? l = some x →
        (l, x) ∈ litWeightCalls K (inOrder (Finset.Icc 1 n)) := by
    intro l x hx
    rw [← hcalls]
    exact GanakInstance.mem_of_weight? hx
  rw [hresult]
  constructor
  · intro σ τ hK
    obtain ⟨m, hm, hiff⟩ := (impl_simulates_denote hK
      fun l x hx => denote_litWeight hK (hweight l x hx)).eval hprog
    rw [hvalue] at hm
    rw [hiff, ← Option.some.inj hm, GanakInstance.modelSum, hvars, hsat]
    exact count_agreeing (dependsOn_cnfHolds hread.range) τ
  · have hone : ∀ l x,
        (directInstance K (setSamplVars cnf (List.range cnf.nVars))).weight? l = some x →
          x.val = (fun _ => 1 : GanakLit → Int) l := by
      intro l x hx
      rw [(litWeightCalls_spec (hweight l x hx)).2]
      rfl
    obtain ⟨m, hm, hval⟩ := (impl_simulates_count hone).eval hprog
    rw [hvalue] at hm
    rw [hval, ← Option.some.inj hm, GanakInstance.modelSum, hvars, hsat]
    exact count_one _ _

end

/-- What the reader makes of the CNF with the one clause -1 2. -/
def implicationCnf : SimplifiedCNF FCircuit where
  nVars := 2
  clauses := [[⟨0, true⟩, ⟨1, false⟩]]
  redClauses := []
  samplVarsSet := false
  samplVars := []
  optSamplVars := []
  weights _ := none
  multiplierWeight := FGenCircuit.one Klay.reference

def setSamplVarsOnly (cnf : SimplifiedCNF FCircuit) (vs : List Nat) : SimplifiedCNF FCircuit :=
  { cnf with samplVarsSet := true, samplVars := vs }

def implicationProgram : List (SemiringProgram.Op GanakLit) :=
  [.lit 0 ⟨2, true⟩, .lit 1 ⟨2, false⟩, .dup 2 0, .addAssign 2 1, .lit 3 ⟨1, false⟩,
    .mulAssign 2 3, .lit 3 ⟨1, true⟩, .mulAssign 0 3, .add 1 2 0]

theorem implication_correct :
    let ganak := fun inst : GanakInstance FCircuit =>
      (SemiringProgram.eval (FGenCircuit.impl Klay.reference inst.weight?)
        implicationProgram 1).getD (FGenCircuit.zero Klay.reference)
    (∀ σ τ, Klay.reference.Evaluates (Node.boolean σ) (literalHolds τ) →
      ((compileDirect Klay.reference setSamplVarsOnly ganak implicationCnf).node.denote σ = true ↔
        cnfHolds τ [[-1, 2]] = true)) ∧
    (compileDirect Klay.reference setSamplVarsOnly ganak implicationCnf).val =
      ((Finset.Icc 1 2).powerset.filter fun A => cnfHolds (indicator A) [[-1, 2]]).card := by
  intro ganak
  have hread : implicationCnf.Reads 2 [[-1, 2]] := ⟨by decide, rfl, rfl, rfl, rfl⟩
  have hset : SetsSamplVars setSamplVarsOnly := fun _ _ => ⟨rfl, rfl, rfl, rfl⟩
  have hscope : Finset.Icc 1 2 = ({1} : Finset Nat) ∪ {2} := by decide
  have hdisj : Disjoint ({1} : Finset Nat) {2} := by decide
  have hvalue : ∀ (R : Type) [CommSemiring R] (ω : GanakLit → R),
      SemiringProgram.eval (SemiringProgram.semiring ω) implicationProgram 1 =
        some ((directInstance Klay.reference (setSamplVarsOnly implicationCnf
          (List.range implicationCnf.nVars))).modelSum ω) := by
    intro R _ ω
    show some ((ω ⟨2, true⟩ + ω ⟨2, false⟩) * ω ⟨1, false⟩ + ω ⟨2, true⟩ * ω ⟨1, true⟩) =
      some (count (fun v b => ω ⟨v, b⟩) (Finset.Icc 1 2) _)
    rw [count, hscope, sum_powerset_union hdisj, sum_powerset_singleton, sum_powerset_singleton,
      sum_powerset_singleton]
    simp [weight, indicator, GanakInstance.sat, GanakLit.holds, directInstance, setSamplVarsOnly,
      implicationCnf, cmsToGanakCl]
    ring
  exact compileDirect_correct hset hread rfl hvalue
end Kompyle
