import Kompyle.ArjunRun

namespace Kompyle

open WeightedCount SemiringProgram

inductive GanakPolarType
  | kStandard
  | kCache
  | kForcedFalse
  | kForcedTrue
  deriving DecidableEq, Repr

def GanakPolarType.toInt : GanakPolarType → Int
  | kStandard => 0
  | kCache => 1
  | kForcedFalse => 2
  | kForcedTrue => 3

structure GanakOptions where
  verb : Int := 0
  doChronobt : Bool := true
  doUseSatSolver : Bool := true
  firstRestart : Option Nat := none
  doRestart : Bool := false
  maximumCacheSizeMb : Nat := 2500
  polarType : GanakPolarType := .kStandard
  rdbKeepUsed : Bool := false
  doTd : Bool := true
  tdVarLimit : Nat := 150000
  tdMaxWeight : Rat := 60
  tdMinWeight : Rat := 7
  tdDivider : Rat := 1000
  tdExpMult : Rat := 11 / 10
  tdIters : Int := 900

/-- The fields of GanakInt::CounterConfiguration that the program sets. -/
structure CounterConfiguration where
  verb : Int
  doChronobt : Int
  doUseSatSolver : Int
  doRestart : Int
  firstRestart : Nat
  maximumCacheSizeMB : Nat
  polarType : Int
  rdbKeepUsed : Int
  doTd : Int
  tdVarlim : Nat
  tdMaxweight : Rat
  tdMinweight : Rat
  tdDivider : Rat
  tdExpMult : Rat
  tdIters : Int

/-- `conf` is what Ganak starts from. -/
def makeGanakConf (conf : CounterConfiguration) (opts : GanakOptions) : CounterConfiguration where
  verb := opts.verb
  doChronobt := if opts.doChronobt then 1 else 0
  doUseSatSolver := if opts.doUseSatSolver then 1 else 0
  doRestart := if opts.doRestart then 1 else 0
  firstRestart := opts.firstRestart.getD conf.firstRestart
  maximumCacheSizeMB := opts.maximumCacheSizeMb
  polarType := opts.polarType.toInt
  rdbKeepUsed := if opts.rdbKeepUsed then 1 else 0
  doTd := if opts.doTd then 1 else 0
  tdVarlim := opts.tdVarLimit
  tdMaxweight := opts.tdMaxWeight
  tdMinweight := opts.tdMinWeight
  tdDivider := opts.tdDivider
  tdExpMult := opts.tdExpMult
  tdIters := opts.tdIters

/-- The parts of the program that are not part of the repository: Arjun, Ganak with the
configuration it starts from, and the DIMACS parser. -/
structure GanakLibrary (F : Type*) where
  arjun : Arjun F
  conf : CounterConfiguration
  count : CounterConfiguration → GanakInstance F → F
  parseDimacs : String → Option (ArjunCNF F)

/-- `file` is what is in the file, or why it cannot be opened. -/
def readDimacsInputFile {F : Type*} (L : GanakLibrary F) (cnfFile : String)
    (file : Except String String) : Except String (ArjunCNF F) :=
  match file with
  | .error strerror => .error s!"cannot open '{cnfFile}': {strerror}"
  | .ok content =>
    match L.parseDimacs content with
    | none => .error s!"DIMACS parse error in '{cnfFile}'"
    | some cnf => .ok cnf

def compileFromCnfUsingGanak (K : Klay) (L : GanakLibrary FCircuit) (cnfFile : String)
    (file : Except String String) (ganakOpts : GanakOptions) (arjunOpts : ArjunOptions) :
    Except String Node := do
  let cnf ← readDimacsInputFile L cnfFile file
  let ganak := L.count (makeGanakConf L.conf ganakOpts)
  if arjunOpts.doArjun then
    let ac := makeArjunConf arjunOpts
    let (cnf, etofConf) := configureArjun K L.arjun cnf ac.etofConf
    let cnf := runArjun L.arjun cnf { ac with etofConf := etofConf }
    return compileArjun K ganak cnf.toSimplifiedCNF
  else
    let setSamplVars := fun c vs =>
      (L.arjun.setSamplVars { cnf with toSimplifiedCNF := c } vs).toSimplifiedCNF
    return (compileDirect K setSamplVars ganak cnf.toSimplifiedCNF).node

/-- What CountFromCnfUsingGanak hands to Ganak where it does not run Arjun. -/
def directCountInstance (weightedCounting : Bool) (cnf : SimplifiedCNF FCount) :
    GanakInstance FCount :=
  let indeps := (cnf.samplVars.map (· + 1)).toFinset
  let optIndeps := (cnf.optSamplVars.map (· + 1)).toFinset
  let optIndeps := if optIndeps = ∅ then indeps else optIndeps
  { newVars := cnf.nVars
    indepSupport := indeps
    optionalIndepSupport := optIndeps
    irredClauses := cnf.clauses.map cmsToGanakCl
    redClauses := cnf.redClauses.map cmsToGanakCl
    litWeights :=
      if weightedCounting then
        (inOrder indeps).flatMap fun v =>
          [(⟨v, true⟩, FGenCount.one), (⟨v, false⟩, FGenCount.one)]
      else [] }

def countFromCnfUsingGanak (L : GanakLibrary FCount) (cnfFile : String)
    (file : Except String String) (ganakOpts : GanakOptions) (arjunOpts : ArjunOptions)
    (weightedCounting : Bool) : Except String Int := do
  let cnf ← readDimacsInputFile L cnfFile file
  let ganak := L.count (makeGanakConf L.conf ganakOpts)
  if arjunOpts.doArjun then
    let ac := makeArjunConf arjunOpts
    let (cnf, etofConf) := configureArjunForCounting L.arjun weightedCounting cnf ac.etofConf
    let cnf := runArjun L.arjun cnf { ac with etofConf := etofConf }
    return countArjun ganak cnf.toSimplifiedCNF
  else
    let cnf :=
      if cnf.samplVarsSet then cnf else L.arjun.setSamplVars cnf (List.range cnf.nVars)
    return extractMpz (some (ganak (directCountInstance weightedCounting cnf.toSimplifiedCNF)))

/-- What the parser makes of an unweighted CNF over the variables 1 to n; `declared` are the
sampling variables it names, from 0, if it names any. -/
structure ArjunCNF.Reads {F : Type*} (cnf : ArjunCNF F) (one : F) (n : Nat)
    (dimacs : List (List Int)) (declared : Option (List Nat)) : Prop where
  range : ∀ cl ∈ dimacs, ∀ d ∈ cl, 1 ≤ d.natAbs ∧ d.natAbs ≤ n
  nVars : cnf.nVars = n
  clauses : cnf.clauses = dimacs.map fun cl => cl.map parseLit
  redClauses : cnf.redClauses = []
  samplVarsSet : cnf.samplVarsSet = declared.isSome
  samplVars : cnf.samplVars = declared.getD []
  samplVars_lt : ∀ v ∈ cnf.samplVars, v < n
  optSamplVars : cnf.optSamplVars = [] ∨ cnf.optSamplVars = cnf.samplVars
  weights : cnf.weights = fun _ => none
  multiplierWeight : cnf.multiplierWeight = one

/-- The variables, from 0, that are counted over: all of them where none are named. -/
def samplingScope (n : Nat) (declared : Option (List Nat)) : Finset Nat :=
  (declared.getD (List.range n)).toFinset

structure GanakInstance.WellFormed {F : Type*} (inst : GanakInstance F) : Prop where
  clauses : ∀ cl ∈ inst.irredClauses ++ inst.redClauses, ∀ l ∈ cl, l.var ∈ inst.vars
  indepSupport : inst.indepSupport ⊆ inst.optionalIndepSupport
  optionalIndepSupport : inst.optionalIndepSupport ⊆ inst.vars

/-- Ganak's answer comes from the weights that were set, and from one where none was, by the
operations of the field alone, and in every commutative semiring these compute the weighted
count over the optional independent support. -/
def Answers {F : Type*} (I : Impl GanakLit F) (inst : GanakInstance F) (x : F) : Prop :=
  ∃ prog out,
    eval (I.withLit fun l => some ((inst.weight? l).getD I.one)) prog out = some x ∧
    ∀ (R : Type) [CommSemiring R] (ω : GanakLit → R), eval (semiring ω) prog out =
      some (WeightedCount.count (fun v b => ω ⟨v, b⟩) inst.optionalIndepSupport
        (project inst.optionalIndepSupport inst.sat))

/-- What is relied on outside the repository. -/
structure GanakLibrary.Documented {F : Type*} (L : GanakLibrary F) (I : Impl GanakLit F) :
    Prop where
  arjun : L.arjun.Documented I
  count : ∀ conf inst, inst.WellFormed → Answers I inst (L.count conf inst)

section

variable {F R : Type} [CommSemiring R] {I : Impl GanakLit F} {ω : F → R}

theorem Answers.interpret (hI : I.Plain) (hω : I.Interprets ω) {inst : GanakInstance F} {x : F}
    (h : Answers I inst x) : ω x = inst.projectedCount ω := by
  obtain ⟨prog, out, hprog, hvalue⟩ := h
  obtain ⟨m, hm, hx⟩ := (hω.simulates hI fun l => (inst.weight? l).getD I.one).eval hprog
  rw [hvalue] at hm
  rw [hx, ← Option.some.inj hm, GanakInstance.projectedCount]
  refine count_congr (fun v _ b => ?_) fun _ _ => rfl
  cases inst.weight? ⟨v, b⟩ with
  | none => exact hω.one
  | some x => rfl

theorem HandsOver.wellFormed {cnf : SimplifiedCNF F} {inst : GanakInstance F}
    (h : HandsOver cnf inst) : inst.WellFormed :=
  ⟨h.clauses, h.indepSupport, h.optionalIndepSupport⟩

/-- Ganak's answer after Arjun, with Arjun's multiplier, is the total. -/
theorem answer_total (hI : I.Plain) (hω : I.Interprets ω) {dup : F → F} (hdup : ∀ x, dup x = x)
    {cnf cnf' : ArjunCNF F} (h : LeavesTotal I cnf cnf') {x : F}
    (hx : (arjunInstance dup cnf'.toSimplifiedCNF).WellFormed →
      Answers I (arjunInstance dup cnf'.toSimplifiedCNF) x) :
    ω cnf'.multiplierWeight * ω x = cnf.toSimplifiedCNF.total ω := by
  have hover : HandsOver cnf'.toSimplifiedCNF (arjunInstance dup cnf'.toSimplifiedCNF) :=
    arjunInstance_handsOver hdup h.duplicateFree
  rw [(hx hover.wellFormed).interpret hI hω, hover.projectedCount, h.total ω hω]

end

end Kompyle
