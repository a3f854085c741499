import Kompyle.ArjunGanak
import Kompyle.CompileGanak

namespace Kompyle

open WeightedCount SemiringProgram

structure ArjunOptions where
  verb : Int := 0
  doArjun : Bool := true
  arjunGates : Bool := true
  doPreBackbone : Bool := false
  doProbeBased : Bool := true
  arjunSimpLevel : Int := 2
  arjunBackwMaxc : Int := 20000
  arjunOracleFindBins : Int := 6
  arjunCmsGlobMult : Rat := -1
  arjunExtendMaxConfl : Int := 1000
  arjunExtendCcnr : Bool := false
  arjunAutarkies : Bool := false
  doPuura : Bool := true
  arjunFurtherMinCutoff : Nat := 10
  numThreads : Int := 1
  stripOptIndep : Bool := false
  allIndep : Bool := false

structure ElimToFileConf where
  allIndep : Bool := false

structure ArjunConf where
  arjunVerb : Int := 0
  doArjun : Int := 1
  arjunGates : Int := 1
  doPreBackbone : Int := 0
  doProbeBased : Int := 1
  arjunSimpLevel : Int := 2
  arjunBackwMaxc : Int := 20000
  arjunOracleFindBins : Int := 6
  arjunCmsGlobMult : Rat := -1
  arjunExtendMaxConfl : Int := 1000
  arjunExtendCcnr : Int := 0
  arjunAutarkies : Int := 0
  doPuura : Int := 1
  arjunFurtherMinCutoff : Nat := 10
  numThreads : Int := 1
  stripOptIndep : Int := 0
  etofConf : ElimToFileConf := {}

def makeArjunConf (pub : ArjunOptions) : ArjunConf where
  arjunVerb := pub.verb
  doArjun := if pub.doArjun then 1 else 0
  arjunGates := if pub.arjunGates then 1 else 0
  doPreBackbone := if pub.doPreBackbone then 1 else 0
  doProbeBased := if pub.doProbeBased then 1 else 0
  arjunSimpLevel := pub.arjunSimpLevel
  arjunBackwMaxc := pub.arjunBackwMaxc
  arjunOracleFindBins := pub.arjunOracleFindBins
  arjunCmsGlobMult := pub.arjunCmsGlobMult
  arjunExtendMaxConfl := pub.arjunExtendMaxConfl
  arjunExtendCcnr := if pub.arjunExtendCcnr then 1 else 0
  arjunAutarkies := if pub.arjunAutarkies then 1 else 0
  doPuura := if pub.doPuura then 1 else 0
  arjunFurtherMinCutoff := pub.arjunFurtherMinCutoff
  numThreads := pub.numThreads
  stripOptIndep := if pub.stripOptIndep then 1 else 0
  etofConf := { allIndep := pub.allIndep }

/-- ArjunNS::SimplifiedCNF with the flags that are read before Arjun runs. -/
structure ArjunCNF (F : Type*) extends SimplifiedCNF F where
  optSamplVarsSet : Bool
  weighted : Bool

/-- What is set on an ArjunNS::Arjun. -/
structure ArjunSettings where
  verb : Int
  orGateBased : Int
  xorGatesBased : Int
  iteGateBased : Int
  irregGateBased : Int
  probeBased : Int
  simp : Int
  backwMaxConfl : Int
  oracleFindBins : Int
  cmsGlobMult : Rat
  extendMaxConfl : Int
  autarkies : Int
  extendCcnr : Int

/-- The part of Arjun the program calls. Arjun is not part of the repository: these are
parameters, and what a result needs of them is `Documented` below. -/
structure Arjun (F : Type*) where
  /-- The settings of a new Arjun. -/
  settings : ArjunSettings
  setSamplVars : ArjunCNF F → List Nat → ArjunCNF F
  setOptSamplVars : ArjunCNF F → List Nat → ArjunCNF F
  setWeighted : ArjunCNF F → Bool → ArjunCNF F
  setLitWeight : ArjunCNF F → CmsLit → F → ArjunCNF F
  standaloneBackbone : ArjunSettings → ArjunCNF F → ArjunCNF F
  standaloneMinimizeIndep : ArjunSettings → ArjunCNF F → Bool → ArjunCNF F
  standaloneElimToFile : ArjunSettings → ArjunCNF F → ElimToFileConf → ArjunCNF F
  renumberSamplingVarsForGanak : ArjunCNF F → ArjunCNF F

section

variable {F : Type*}

/-- The loop that weighs the sampling variables. -/
def setLitWeights (A : Arjun F) (pos neg : Nat → F) (cnf : ArjunCNF F) : ArjunCNF F :=
  cnf.samplVars.foldl (fun cnf v =>
    A.setLitWeight (A.setLitWeight cnf ⟨v, false⟩ (pos v)) ⟨v, true⟩ (neg v)) cnf

def runArjun (A : Arjun F) (cnf : ArjunCNF F) (ac : ArjunConf) : ArjunCNF F :=
  let arjun := { A.settings with
    verb := ac.arjunVerb
    orGateBased := ac.arjunGates
    xorGatesBased := ac.arjunGates
    iteGateBased := ac.arjunGates
    irregGateBased := ac.arjunGates
    probeBased := ac.doProbeBased
    simp := ac.arjunSimpLevel
    backwMaxConfl := ac.arjunBackwMaxc
    oracleFindBins := ac.arjunOracleFindBins
    cmsGlobMult := ac.arjunCmsGlobMult
    extendMaxConfl := ac.arjunExtendMaxConfl
    autarkies := ac.arjunAutarkies }
  let cnf := if ac.doPreBackbone ≠ 0 then A.standaloneBackbone arjun cnf else cnf
  let cnf := A.standaloneMinimizeIndep arjun cnf ac.etofConf.allIndep
  let arjun := { arjun with extendCcnr := ac.arjunExtendCcnr }
  if ac.arjunFurtherMinCutoff ≤ cnf.samplVars.length ∧ ac.doPuura ≠ 0 then
    A.standaloneElimToFile arjun cnf ac.etofConf
  else A.renumberSamplingVarsForGanak cnf

end

def configureArjun (K : Klay) (A : Arjun FCircuit) (cnf : ArjunCNF FCircuit)
    (etofConf : ElimToFileConf) : ArjunCNF FCircuit × ElimToFileConf :=
  let (cnf, etofConf) :=
    if cnf.samplVarsSet then (cnf, etofConf)
    else (A.setSamplVars cnf (List.range cnf.nVars), { etofConf with allIndep := true })
  let cnf := setLitWeights A (fun v => FGenCircuit.litField K (v + 1))
    (fun v => FGenCircuit.litField K (-(v + 1))) (A.setWeighted cnf true)
  (cnf, etofConf)

/-- `weighted` is what the field of the CNF says. -/
def configureArjunForCounting (A : Arjun FCount) (weighted : Bool) (cnf : ArjunCNF FCount)
    (etofConf : ElimToFileConf) : ArjunCNF FCount × ElimToFileConf :=
  let (cnf, etofConf) :=
    if cnf.samplVarsSet then
      let etofConf :=
        if cnf.samplVars.toFinset.card = cnf.nVars then { etofConf with allIndep := true }
        else etofConf
      (if cnf.optSamplVarsSet then cnf else A.setOptSamplVars cnf cnf.samplVars, etofConf)
    else (A.setSamplVars cnf (List.range cnf.nVars), { etofConf with allIndep := true })
  let cnf :=
    if weighted then
      setLitWeights A (fun _ => FGenCount.one) (fun _ => FGenCount.one) (A.setWeighted cnf true)
    else cnf
  (cnf, etofConf)

section

variable {F R : Type*} [CommSemiring R]

/-- What a literal weighs; what has no weight weighs one. -/
def SimplifiedCNF.litWeight (cnf : SimplifiedCNF F) (ω : F → R) (v : Nat) (b : Bool) : R :=
  (cnf.weights v).elim 1 fun p => ω (if b then p.1 else p.2)

def SimplifiedCNF.scope (cnf : SimplifiedCNF F) : Finset Nat :=
  cnf.samplVars.toFinset ∪ cnf.optSamplVars.toFinset

/-- The weighted count over all sampling variables, times the multiplier. -/
noncomputable def SimplifiedCNF.total (cnf : SimplifiedCNF F) (ω : F → R) : R :=
  ω cnf.multiplierWeight * count (cnf.litWeight ω) cnf.scope (project cnf.scope cnf.sat)

def SimplifiedCNF.AllIndep (cnf : SimplifiedCNF F) : Prop := ∀ v < cnf.nVars, v ∈ cnf.scope

end

section

variable {F : Type*}

/-- A step inside Arjun: the total stays, in whatever way field values are read. -/
structure KeepsTotal (I : Impl GanakLit F) (cnf cnf' : ArjunCNF F) : Prop where
  total : ∀ {R : Type} [CommSemiring R] (ω : F → R), I.Interprets ω →
    cnf'.toSimplifiedCNF.total ω = cnf.toSimplifiedCNF.total ω
  allIndep : cnf.AllIndep → cnf'.AllIndep

/-- The last step of Arjun: what the clauses and the multiplier that are left count is the
total. -/
structure LeavesTotal (I : Impl GanakLit F) (cnf cnf' : ArjunCNF F) : Prop where
  duplicateFree : cnf'.DuplicateFree
  total : ∀ {R : Type} [CommSemiring R] (ω : F → R), I.Interprets ω →
    ω cnf'.multiplierWeight * cnf'.projectedCount ω = cnf.toSimplifiedCNF.total ω

/-- What is relied on in Arjun. Its setters do what they say, within their assertions, and its
steps keep the weighted count. Where all variables are said to be independent, all have to be
sampling variables. -/
structure Arjun.Documented (A : Arjun F) (I : Impl GanakLit F) : Prop where
  setSamplVars : ∀ cnf vs, vs.Pairwise (· < ·) → (∀ v ∈ vs, v < cnf.nVars) →
    ∃ opt optSet, (opt = cnf.optSamplVars ∨ opt = vs) ∧ A.setSamplVars cnf vs =
      { cnf with samplVarsSet := true, samplVars := vs, optSamplVars := opt,
                 optSamplVarsSet := optSet }
  setOptSamplVars : ∀ cnf vs, (∀ v ∈ vs, v < cnf.nVars) →
    ∃ opt, opt.toFinset = vs.toFinset ∧ A.setOptSamplVars cnf vs =
      { cnf with optSamplVars := opt, optSamplVarsSet := true }
  setWeighted : ∀ cnf b, A.setWeighted cnf b = { cnf with weighted := b }
  setLitWeight : ∀ cnf l x, cnf.weighted = true → l.var < cnf.nVars →
    ∃ p, (if l.sign then p.2 = x else p.1 = x) ∧
      (∀ q, cnf.weights l.var = some q → if l.sign then p.1 = q.1 else p.2 = q.2) ∧
      A.setLitWeight cnf l x =
        { cnf with weights := Function.update cnf.weights l.var (some p) }
  standaloneBackbone : ∀ s cnf, KeepsTotal I cnf (A.standaloneBackbone s cnf)
  standaloneMinimizeIndep : ∀ s cnf b, (b = true → cnf.AllIndep) →
    KeepsTotal I cnf (A.standaloneMinimizeIndep s cnf b)
  standaloneElimToFile : ∀ s cnf conf, (conf.allIndep = true → cnf.AllIndep) →
    LeavesTotal I cnf (A.standaloneElimToFile s cnf conf)
  renumberSamplingVarsForGanak : ∀ cnf, LeavesTotal I cnf (A.renumberSamplingVarsForGanak cnf)

variable {A : Arjun F} {I : Impl GanakLit F}

theorem KeepsTotal.leaves {a b c : ArjunCNF F} (h : KeepsTotal I a b) (h' : LeavesTotal I b c) :
    LeavesTotal I a c :=
  ⟨h'.duplicateFree, fun ω hω => (h'.total ω hω).trans (h.total ω hω)⟩

theorem runArjun_leavesTotal (hA : A.Documented I) (cnf : ArjunCNF F) (ac : ArjunConf)
    (hall : ac.etofConf.allIndep = true → cnf.AllIndep) :
    LeavesTotal I cnf (runArjun A cnf ac) := by
  have hlast : ∀ s t (cnf : ArjunCNF F), (ac.etofConf.allIndep = true → cnf.AllIndep) →
      LeavesTotal I cnf (
        let cnf := A.standaloneMinimizeIndep s cnf ac.etofConf.allIndep
        if ac.arjunFurtherMinCutoff ≤ cnf.samplVars.length ∧ ac.doPuura ≠ 0 then
          A.standaloneElimToFile t cnf ac.etofConf
        else A.renumberSamplingVarsForGanak cnf) := by
    intro s t cnf hall
    have hmin := hA.standaloneMinimizeIndep s cnf ac.etofConf.allIndep hall
    dsimp only
    split
    next => exact hmin.leaves (hA.standaloneElimToFile _ _ _ fun h => hmin.allIndep (hall h))
    next => exact hmin.leaves (hA.renumberSamplingVarsForGanak _)
  unfold runArjun
  split
  next =>
    have hback := hA.standaloneBackbone
    exact (hback _ cnf).leaves (hlast _ _ _ fun h => (hback _ cnf).allIndep (hall h))
  next => exact hlast _ _ cnf hall

theorem setLitWeights_fold (hA : A.Documented I) {pos neg : Nat → F} (vs : List Nat)
    (cnf : ArjunCNF F) (hw : cnf.weighted = true) (hvs : ∀ v ∈ vs, v < cnf.nVars) :
    ∃ weights, vs.foldl (fun cnf v =>
        A.setLitWeight (A.setLitWeight cnf ⟨v, false⟩ (pos v)) ⟨v, true⟩ (neg v)) cnf =
      { cnf with weights := weights } ∧
      ∀ v, weights v = if v ∈ vs then some (pos v, neg v) else cnf.weights v := by
  induction vs generalizing cnf with
  | nil => exact ⟨cnf.weights, rfl, fun v => by simp⟩
  | cons u vs ih =>
    obtain ⟨p, hp, -, hpos⟩ := hA.setLitWeight cnf ⟨u, false⟩ (pos u) hw (hvs u (by simp))
    obtain ⟨q, hq, hkeep, hneg⟩ := hA.setLitWeight
      { cnf with weights := Function.update cnf.weights u (some p) } ⟨u, true⟩ (neg u) hw
      (hvs u (by simp))
    have hqp : q = (pos u, neg u) := by
      have hfst := hkeep p (Function.update_self ..)
      simp only [Bool.false_eq_true, if_true, if_false] at hp hq hfst
      rw [← hq, ← hp, ← hfst]
    obtain ⟨weights, hfold, hweights⟩ := ih
      { cnf with weights := Function.update cnf.weights u (some q) } hw
      fun v hv => hvs v (List.mem_cons_of_mem u hv)
    refine ⟨weights, ?_, fun v => ?_⟩
    · rw [List.foldl_cons, hpos, hneg]
      simpa using hfold
    · rw [hweights]
      by_cases hv : v ∈ vs
      · simp [hv]
      · by_cases hvu : v = u
        · subst hvu
          simp [hv, hqp]
        · simp [hv, hvu]

theorem setLitWeights_spec (hA : A.Documented I) (pos neg : Nat → F) (cnf : ArjunCNF F)
    (hvs : ∀ v ∈ cnf.samplVars, v < cnf.nVars) :
    ∃ weights, setLitWeights A pos neg (A.setWeighted cnf true) =
      { cnf with weighted := true, weights := weights } ∧
      ∀ v, weights v = if v ∈ cnf.samplVars then some (pos v, neg v) else cnf.weights v := by
  rw [hA.setWeighted]
  exact setLitWeights_fold hA cnf.samplVars { cnf with weighted := true } rfl hvs

end

end Kompyle
