import Kompyle.D4Operation
import Kompyle.GatedFormula
import Kompyle.KCircuit

namespace Kompyle

inductive BcGateType
  | AND | OR | IDENTITY
  deriving DecidableEq, Repr

structure BcGate where
  gate_type : BcGateType
  output : Lit
  input : List Lit
  deriving DecidableEq, Repr

/-- The parts of d4::ProblemManagerCircuit that are filled in here. -/
structure ProblemManagerCircuit where
  gates : List BcGate
  trueLiterals : List Lit
  nbVar : Nat
  weightLit : List Rat
  weightVar : List Rat
  order : List Nat

def ProblemManagerCircuit.empty : ProblemManagerCircuit := ⟨[], [], 0, [], [], []⟩

/-- A token that starts with '-' is the name behind it, negated. -/
def tokenNeg (tok : String) : Bool :=
  match tok.toList with
  | '-' :: _ => true
  | _ => false

def tokenName (tok : String) : String :=
  match tok.toList with
  | '-' :: name => String.ofList name
  | _ => tok

def tokenLit (index : String → Nat) (tok : String) : Lit :=
  let l := Lit.makeLitTrue (index (tokenName tok))
  if tokenNeg tok then l.neg else l

/-- The source asserts that the token is not empty; here an empty one is the empty name. -/
def resolveToken (circuit : Circuit) (tok : String) : Circuit × Lit :=
  let neg : Bool := tok.toList.head? = some '-'
  let name := if neg then String.ofList (tok.toList.drop 1) else tok
  let (circuit, var) := circuit.getLit name
  let l := Lit.makeLitTrue var
  (circuit, if neg then l.neg else l)

def resolveTokens (circuit : Circuit) : List String → Circuit × List Lit
  | [] => (circuit, [])
  | tok :: toks =>
    let (circuit, l) := resolveToken circuit tok
    let (circuit, ls) := resolveTokens circuit toks
    (circuit, l :: ls)

def materialiseGate (type : BcGateType) (g : GatedFormula.Gate)
    (st : Circuit × ProblemManagerCircuit) : Circuit × ProblemManagerCircuit :=
  let (circuit, pm) := st
  let (circuit, output) := resolveToken circuit g.output
  let (circuit, input) := resolveTokens circuit g.inputs
  (circuit, { pm with gates := pm.gates ++ [⟨type, output, input⟩] })

def materialiseTarget (g : GatedFormula.Gate) (st : Circuit × ProblemManagerCircuit) :
    Circuit × ProblemManagerCircuit :=
  let (circuit, pm) := st
  let (circuit, l) := resolveToken circuit g.output
  (circuit, { pm with trueLiterals := pm.trueLiterals ++ [l] })

def materialiseStep (st : Circuit × ProblemManagerCircuit) (g : GatedFormula.Gate) :
    Circuit × ProblemManagerCircuit :=
  match g.kind with
  | .kTarget => materialiseTarget g st
  | .kAnd => materialiseGate .AND g st
  | .kOr => materialiseGate .OR g st
  | .kIdentity => materialiseGate .IDENTITY g st

def materialiseFormula (gf : GatedFormula) (circuit : Circuit) (pm : ProblemManagerCircuit) :
    Circuit × ProblemManagerCircuit :=
  gf.gates_.foldl materialiseStep (circuit, pm)

def initPmWeights (pm : ProblemManagerCircuit) (nbVars : Nat) : ProblemManagerCircuit :=
  { pm with
    nbVar := nbVars
    weightLit := List.replicate ((nbVars + 1) <<< 1) 1
    weightVar := List.replicate (nbVars + 1) 2
    order := List.range (nbVars + 1) }

/-- The source asserts that the output of an input gate is a variable of the problem; List.set
ignores one that is not. -/
def excludeStep (isExcluded : List Bool) (g : BcGate) : List Bool :=
  if g.gate_type = .IDENTITY then isExcluded.set g.output.var false else isExcluded

def buildExclusionMask (pm : ProblemManagerCircuit) : List Bool :=
  pm.gates.foldl excludeStep (List.replicate (pm.nbVar + 1) true)

/-- What CompileFromGatesFormulaUsingD4v2 hands to d4 and to the operation. -/
structure Prepared where
  circuit : Circuit
  problem : ProblemManagerCircuit
  isGateVar : List Bool

def prepareGatesFormula (circuit : Circuit) (gf : GatedFormula) : Prepared :=
  let (circuit, pm) := materialiseFormula gf circuit .empty
  let pm := initPmWeights pm circuit.nbVars
  ⟨circuit, pm, buildExclusionMask pm⟩

/-- The circuit after the formulas, compiled into it one after another. -/
def circuitAfter (gfs : List GatedFormula) : Circuit :=
  gfs.foldl (fun circuit gf => (prepareGatesFormula circuit gf).circuit) Circuit.fresh

namespace GatedFormula

def names (gf : GatedFormula) : List String := gf.tokens.map tokenName

def Gate.names (g : Gate) : List String := g.tokens.map tokenName

/-- The gates of the formula with every token replaced by its literal, targets left out. -/
def gatesUnder (index : String → Nat) (gf : GatedFormula) : List BcGate :=
  gf.gates_.filterMap fun g =>
    match g.kind with
    | .kTarget => none
    | .kAnd => some ⟨.AND, tokenLit index g.output, g.inputs.map (tokenLit index)⟩
    | .kOr => some ⟨.OR, tokenLit index g.output, g.inputs.map (tokenLit index)⟩
    | .kIdentity => some ⟨.IDENTITY, tokenLit index g.output, g.inputs.map (tokenLit index)⟩

def targetsUnder (index : String → Nat) (gf : GatedFormula) : List Lit :=
  gf.gates_.filterMap fun g =>
    match g.kind with
    | .kTarget => some (tokenLit index g.output)
    | _ => none

theorem names_cons (g : Gate) (gs : List Gate) :
    names ⟨g :: gs⟩ = g.names ++ names ⟨gs⟩ := by
  simp [names, tokens, Gate.names]

theorem gatesUnder_cons (index : String → Nat) (g : Gate) (gs : List Gate) :
    gatesUnder index ⟨g :: gs⟩ = gatesUnder index ⟨[g]⟩ ++ gatesUnder index ⟨gs⟩ :=
  List.filterMap_append (l := [g])

theorem targetsUnder_cons (index : String → Nat) (g : Gate) (gs : List Gate) :
    targetsUnder index ⟨g :: gs⟩ = targetsUnder index ⟨[g]⟩ ++ targetsUnder index ⟨gs⟩ :=
  List.filterMap_append (l := [g])

end GatedFormula

theorem tokenNeg_eq (tok : String) : tokenNeg tok = decide (tok.toList.head? = some '-') := by
  unfold tokenNeg
  split
  next h => simp [h]
  next hplain =>
    refine (decide_eq_false fun h => ?_).symm
    obtain ⟨name, hname⟩ := List.head?_eq_some_iff.mp h
    exact hplain name hname

theorem tokenName_eq (tok : String) :
    tokenName tok = if tokenNeg tok then String.ofList (tok.toList.drop 1) else tok := by
  unfold tokenName tokenNeg
  split
  next h => simp [h]
  next => rfl

theorem tokenName_of_plain {tok : String} (h : tokenNeg tok = false) : tokenName tok = tok := by
  rw [tokenName_eq, h]
  rfl

theorem resolveToken_eq (c : Circuit) (tok : String) :
    resolveToken c tok =
      ((c.getLit (tokenName tok)).1, tokenLit (c.getLit (tokenName tok)).1.index tok) := by
  have h := (c.getLit_spec (tokenName tok)).2
  simp only [resolveToken, ← tokenNeg_eq, ← tokenName_eq, tokenLit, h]

theorem tokenLit_mono {c d : Circuit} (h : c.registered <+: d.registered) {tok : String}
    (hm : tokenName tok ∈ c.registered) : tokenLit c.index tok = tokenLit d.index tok := by
  simp only [tokenLit, Circuit.index_mono h hm]

theorem resolveTokens_spec (c : Circuit) (toks : List String) :
    (resolveTokens c toks).1 = c.after (toks.map tokenName) ∧
      ∀ d : Circuit, (resolveTokens c toks).1.registered <+: d.registered →
        (resolveTokens c toks).2 = toks.map (tokenLit d.index) := by
  induction toks generalizing c with
  | nil => exact ⟨rfl, fun _ _ => rfl⟩
  | cons tok toks ih =>
    obtain ⟨hc, hls⟩ := ih (c.getLit (tokenName tok)).1
    unfold resolveTokens
    simp only [resolveToken_eq]
    refine ⟨hc, fun d hd => ?_⟩
    have hpre : (c.getLit (tokenName tok)).1.registered <+: d.registered := by
      rw [hc] at hd
      exact (Circuit.prefix_after _ _).trans hd
    rw [hls d hd, List.map_cons, tokenLit_mono hpre (c.mem_getLit _)]

theorem materialiseGate_spec (type : BcGateType) (g : GatedFormula.Gate) (c : Circuit)
    (pm : ProblemManagerCircuit) :
    (materialiseGate type g (c, pm)).1 = c.after ((g.output :: g.inputs).map tokenName) ∧
      ∀ d : Circuit, (materialiseGate type g (c, pm)).1.registered <+: d.registered →
        (materialiseGate type g (c, pm)).2 = { pm with
          gates := pm.gates ++
            [⟨type, tokenLit d.index g.output, g.inputs.map (tokenLit d.index)⟩] } := by
  have h := resolveTokens_spec c (g.output :: g.inputs)
  unfold resolveTokens at h
  refine ⟨h.1, fun d hd => ?_⟩
  have hls := h.2 d hd
  rw [List.map_cons, List.cons.injEq] at hls
  simp only [materialiseGate, hls.1, hls.2]

theorem materialiseStep_spec (c : Circuit) (pm : ProblemManagerCircuit) (g : GatedFormula.Gate) :
    (materialiseStep (c, pm) g).1 = c.after g.names ∧
      ∀ d : Circuit, (materialiseStep (c, pm) g).1.registered <+: d.registered →
        (materialiseStep (c, pm) g).2 = { pm with
          gates := pm.gates ++ GatedFormula.gatesUnder d.index ⟨[g]⟩
          trueLiterals := pm.trueLiterals ++ GatedFormula.targetsUnder d.index ⟨[g]⟩ } := by
  obtain ⟨kind, output, inputs⟩ := g
  cases kind with
  | kAnd =>
    simpa [materialiseStep, GatedFormula.Gate.names, GatedFormula.Gate.tokens,
      GatedFormula.gatesUnder, GatedFormula.targetsUnder] using
      materialiseGate_spec .AND ⟨.kAnd, output, inputs⟩ c pm
  | kOr =>
    simpa [materialiseStep, GatedFormula.Gate.names, GatedFormula.Gate.tokens,
      GatedFormula.gatesUnder, GatedFormula.targetsUnder] using
      materialiseGate_spec .OR ⟨.kOr, output, inputs⟩ c pm
  | kIdentity =>
    simpa [materialiseStep, GatedFormula.Gate.names, GatedFormula.Gate.tokens,
      GatedFormula.gatesUnder, GatedFormula.targetsUnder] using
      materialiseGate_spec .IDENTITY ⟨.kIdentity, output, inputs⟩ c pm
  | kTarget =>
    simp only [materialiseStep, materialiseTarget, resolveToken_eq]
    refine ⟨rfl, fun d hd => ?_⟩
    rw [tokenLit_mono hd (c.mem_getLit _)]
    simp [GatedFormula.gatesUnder, GatedFormula.targetsUnder]

/-- The loop: it resolves the tokens of the formula in order, and every later numbering gives
the problem back from the formula. -/
theorem materialiseFormula_spec (gf : GatedFormula) (c : Circuit) (pm : ProblemManagerCircuit) :
    (materialiseFormula gf c pm).1 = c.after gf.names ∧
      ∀ d : Circuit, (materialiseFormula gf c pm).1.registered <+: d.registered →
        (materialiseFormula gf c pm).2 = { pm with
          gates := pm.gates ++ gf.gatesUnder d.index
          trueLiterals := pm.trueLiterals ++ gf.targetsUnder d.index } := by
  obtain ⟨gs⟩ := gf
  induction gs generalizing c pm with
  | nil => exact ⟨rfl, fun d _ => by simp [materialiseFormula, GatedFormula.gatesUnder,
      GatedFormula.targetsUnder]⟩
  | cons g gs ih =>
    obtain ⟨hc, hpm⟩ := materialiseStep_spec c pm g
    obtain ⟨hc', hpm'⟩ := ih (materialiseStep (c, pm) g).1 (materialiseStep (c, pm) g).2
    have hloop : materialiseFormula ⟨g :: gs⟩ c pm = materialiseFormula ⟨gs⟩
        (materialiseStep (c, pm) g).1 (materialiseStep (c, pm) g).2 := rfl
    rw [hloop, GatedFormula.names_cons, Circuit.after_append, ← hc]
    refine ⟨hc', fun d hd => ?_⟩
    have hpre : (materialiseStep (c, pm) g).1.registered <+: d.registered := by
      rw [hc'] at hd
      exact (Circuit.prefix_after _ _).trans hd
    rw [hpm' d hd, hpm d hpre, GatedFormula.gatesUnder_cons d.index g gs,
      GatedFormula.targetsUnder_cons d.index g gs]
    simp only [List.append_assoc]

theorem length_buildExclusionMask (pm : ProblemManagerCircuit) :
    (buildExclusionMask pm).length = pm.nbVar + 1 := by
  have h : ∀ (gs : List BcGate) (mask : List Bool),
      (gs.foldl excludeStep mask).length = mask.length := by
    intro gs
    induction gs with
    | nil => exact fun _ => rfl
    | cons g gs ih =>
      intro mask
      rw [List.foldl_cons, ih, excludeStep]
      split
      · exact List.length_set
      · rfl
  rw [buildExclusionMask, h, List.length_replicate]

end Kompyle
