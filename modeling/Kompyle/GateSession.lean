import Kompyle.BcRoundTrip
import Kompyle.GateElimination
import Kompyle.MaskedDeterminism

namespace Kompyle

open WeightedCount

/-- The circuit's names after the call, and the node; `solver` is d4 with its options. -/
def compileFromGatesFormulaUsingD4v2 (K : Klay) (solver : Prepared → CallTree) (c : Circuit)
    (gformula : GatedFormula) : Circuit × Node :=
  let p := prepareGatesFormula c gformula
  (p.circuit, (solver p).run (klayCircuitOperation K p.isGateVar))

def compileFromGatesFileUsingD4v2 (K : Klay) (solver : Prepared → CallTree) (c : Circuit)
    (bcPath : String) (file : Option String) : Except String (Circuit × Node) := do
  let gf ← parseBcFile bcPath file
  return compileFromGatesFormulaUsingD4v2 K solver c gf

/-- A call that compiles gates into a circuit. -/
inductive GateCall
  | formula (solver : Prepared → CallTree) (gformula : GatedFormula)
  | file (solver : Prepared → CallTree) (bcPath : String) (content : Option String)

namespace GateCall

def solver : GateCall → Prepared → CallTree
  | formula solver _ => solver
  | file solver _ _ => solver

/-- What there is to compile, or what is thrown. -/
def load : GateCall → Except String GatedFormula
  | formula _ gformula => .ok gformula
  | file _ bcPath content => parseBcFile bcPath content

/-- A call that throws leaves the circuit as it is. -/
def compile (K : Klay) (c : Circuit) : GateCall → Circuit × Except String Node
  | formula solver gformula =>
    let (c, n) := compileFromGatesFormulaUsingD4v2 K solver c gformula
    (c, .ok n)
  | file solver bcPath content =>
    match compileFromGatesFileUsingD4v2 K solver c bcPath content with
    | .ok (c, n) => (c, .ok n)
    | .error message => (c, .error message)

theorem compile_ok (K : Klay) (c : Circuit) {call : GateCall} {gf : GatedFormula}
    (h : call.load = .ok gf) : call.compile K c = ((prepareGatesFormula c gf).circuit,
      .ok ((call.solver (prepareGatesFormula c gf)).run
        (klayCircuitOperation K (prepareGatesFormula c gf).isGateVar))) := by
  cases call with
  | formula solver gformula =>
    cases h
    rfl
  | file solver bcPath content =>
    have hparse : parseBcFile bcPath content = .ok gf := h
    simp only [compile, compileFromGatesFileUsingD4v2, hparse]
    rfl

theorem compile_error (K : Klay) (c : Circuit) {call : GateCall} {message : String}
    (h : call.load = .error message) : call.compile K c = (c, .error message) := by
  cases call with
  | formula solver gformula => cases h
  | file solver bcPath content =>
    have hparse : parseBcFile bcPath content = .error message := h
    simp only [compile, compileFromGatesFileUsingD4v2, hparse]
    rfl

end GateCall

/-- Calls made one after another on one circuit. -/
def compileSession (K : Klay) : Circuit → List GateCall → Circuit × List (Except String Node)
  | c, [] => (c, [])
  | c, call :: calls =>
    let (c, r) := call.compile K c
    let (c, rs) := compileSession K c calls
    (c, r :: rs)

/-- Every formula that is reached is well formed, and d4 answers with a run on its problem. -/
inductive Served (K : Klay) : Circuit → List GateCall → Prop
  | nil (c : Circuit) : Served K c []
  | cons {c : Circuit} {call : GateCall} {calls : List GateCall}
      (hcall : ∀ gf, call.load = .ok gf →
        gf.WellFormed ∧ (prepareGatesFormula c gf).IsRun (call.solver (prepareGatesFormula c gf)))
      (hcalls : Served K (call.compile K c).1 calls) : Served K c (call :: calls)

section

variable {K : Klay}

theorem prefix_compile (c : Circuit) (call : GateCall) :
    c.registered <+: (call.compile K c).1.registered := by
  cases h : call.load with
  | error message => rw [GateCall.compile_error K c h]
  | ok gf =>
    rw [GateCall.compile_ok K c h, (prepareGatesFormula_spec c gf).1]
    exact Circuit.prefix_after _ _

theorem prefix_compileSession (calls : List GateCall) (c : Circuit) :
    c.registered <+: (compileSession K c calls).1.registered := by
  induction calls generalizing c with
  | nil => exact List.prefix_refl _
  | cons call calls ih => exact (prefix_compile c call).trans (ih (call.compile K c).1)

end

section

variable {c : Circuit} {gf : GatedFormula}

/-- The values of the inputs determine those of the outputs in every model of the problem. -/
theorem determines_prepared (hw : gf.WellFormed) {t : CallTree}
    (ht : (prepareGatesFormula c gf).IsRun t) :
    t.Determines (prepareGatesFormula c gf).isGateVar
      (Finset.Icc 1 (prepareGatesFormula c gf).circuit.nbVars)
      (foreign (prepareGatesFormula c gf)) := by
  intro τ τ' hτ hτ' hagree v hv hvU
  rw [ht.equivalent, sat_eq_solves hw, GatedFormula.solves_iff] at hτ hτ'
  have hin : ∀ a ∈ gf.inputs, τ ((prepareGatesFormula c gf).circuit.index a) =
      τ' ((prepareGatesFormula c gf).circuit.index a) := by
    intro a ha
    have hmem : a ∈ gf.inputs ∪ gf.outputs := Finset.mem_union_left _ ha
    have hscope : (prepareGatesFormula c gf).circuit.index a ∈
        (gf.inputs ∪ gf.outputs).image (prepareGatesFormula c gf).circuit.index :=
      Finset.mem_image_of_mem _ hmem
    rw [← scope_sdiff_foreign hw] at hscope
    exact hagree _ (Finset.mem_sdiff.mp hscope).1 (input_kept hw ha)
  have hvar : v ∈ (gf.inputs ∪ gf.outputs).image (prepareGatesFormula c gf).circuit.index := by
    rw [← scope_sdiff_foreign hw]
    exact Finset.mem_sdiff.mpr ⟨hv, hvU⟩
  obtain ⟨name, hname, rfl⟩ := Finset.mem_image.mp hvar
  let env : String → Bool := fun name => τ ((prepareGatesFormula c gf).circuit.index name)
  let env' : String → Bool := fun name => τ' ((prepareGatesFormula c gf).circuit.index name)
  have heval : env name = gf.evaluate env name :=
    hw.evaluate_unique (fun _ _ => rfl) hτ.1 (Finset.mem_union.mp hname)
  have heval' : env' name = gf.evaluate env name :=
    hw.evaluate_unique (fun a ha => (hin a ha).symm) hτ'.1 (Finset.mem_union.mp hname)
  exact heval.trans heval'.symm

/-- Some values of the masked variables solve the problem exactly when evaluation from the inputs
makes the targets true. -/
theorem exists_solution_iff (hw : gf.WellFormed) (τ : Nat → Bool) :
    (∃ τ', AgreeUnmasked (prepareGatesFormula c gf).isGateVar τ' τ ∧
      (prepareGatesFormula c gf).problem.sat τ' = true) ↔
    gf.targetsHold (gf.evaluate fun name =>
      τ ((prepareGatesFormula c gf).circuit.index name)) = true := by
  let index := (prepareGatesFormula c gf).circuit.index
  let env : String → Bool := gf.evaluate fun name => τ (index name)
  constructor
  · rintro ⟨τ', hagree, hsat⟩
    rw [sat_eq_solves hw, GatedFormula.solves_iff] at hsat
    have heval : ∀ name ∈ gf.names, env name = τ' (index name) := by
      intro name hname
      exact (hw.evaluate_unique (fun a ha => hagree _ (input_kept hw ha)) hsat.1
        (Finset.mem_union.mp (hw.mem_names.mp hname))).symm
    exact (GatedFormula.targetsHold_congr heval).trans hsat.2
  · intro htargets
    classical
    let τ' : Nat → Bool := fun v =>
      if h : ∃ o ∈ gf.outputs, index o = v then env h.choose else τ v
    have hout : ∀ o ∈ gf.outputs, τ' (index o) = env o := by
      intro o ho
      have hex : ∃ o' ∈ gf.outputs, index o' = index o := ⟨o, ho, rfl⟩
      have hsame : hex.choose = o := index_injOn hw
        (Finset.mem_coe.mpr (Finset.mem_union_right _ hex.choose_spec.1))
        (Finset.mem_coe.mpr (Finset.mem_union_right _ ho)) hex.choose_spec.2
      simp only [τ', dif_pos hex, hsame]
    have hagree : AgreeUnmasked (prepareGatesFormula c gf).isGateVar τ' τ := by
      intro v hm
      refine dif_neg ?_
      rintro ⟨o, ho, rfl⟩
      have hmask := output_masked (c := c) hw ho
      rw [hmask] at hm
      cases hm
    have hval : ∀ name ∈ gf.inputs ∪ gf.outputs, τ' (index name) = env name := by
      intro name hname
      rcases Finset.mem_union.mp hname with ha | ho
      · have hin : env name = τ (index name) := hw.evaluate_input ha
        rw [hin]
        exact hagree _ (input_kept hw ha)
      · exact hout name ho
    refine ⟨τ', hagree, ?_⟩
    rw [sat_eq_solves hw, hw.solves_congr hval, GatedFormula.solves_iff]
    exact ⟨fun g hg => hw.evaluate_gate hg, htargets⟩

end

/-- A call gives back a deterministic circuit for what was loaded, or what loading threw. -/
def Compiled (K : Klay) (index : String → Nat) (call : GateCall) : Except String Node → Prop
  | .ok n => ∃ gf, call.load = .ok gf ∧ n.Deterministic ∧
      ∀ σ τ, K.Evaluates (Node.boolean σ) (literalHolds τ) →
        n.denote σ = gf.targetsHold (gf.evaluate fun name => τ (index name))
  | .error message => call.load = .error message

section

variable {K : Klay}

theorem evaluate_congr {gf : GatedFormula} (hw : gf.WellFormed) {α β : String → Bool}
    (h : ∀ a ∈ gf.inputs, α a = β a) {name : String} (hname : name ∈ gf.names) :
    gf.evaluate α name = gf.evaluate β name := by
  refine hw.evaluate_unique (fun a ha => ?_) (fun g hg => hw.evaluate_gate hg)
    (Finset.mem_union.mp (hw.mem_names.mp hname))
  rw [hw.evaluate_input ha, h a ha]

theorem compiled_call (hS : K.Simplifies) (hden : K.Denotes) (hneg : K.Complements) {c d : Circuit}
    {call : GateCall} {gf : GatedFormula} (hload : call.load = .ok gf) (hw : gf.WellFormed)
    (ht : (prepareGatesFormula c gf).IsRun (call.solver (prepareGatesFormula c gf)))
    (hd : (prepareGatesFormula c gf).circuit.registered <+: d.registered) :
    Compiled K d.index call (call.compile K c).2 := by
  rw [GateCall.compile_ok K c hload]
  have h0 : 0 ∉ Finset.Icc 1 (prepareGatesFormula c gf).circuit.nbVars := by simp
  have hunits : (call.solver (prepareGatesFormula c gf)).EachBranch fun e =>
      ∀ l ∈ e.unitLits, l.var ∉ foreign (prepareGatesFormula c gf) :=
    CallTree.live_mono (fun _ h => h)
      (fun e (h : ∀ l ∈ e.unitLits, (prepareGatesFormula c gf).problem.Occurs l.var) l hl hf =>
        (mem_foreign.mp hf).2 (h l hl)) (fun _ h => h) ht.units
  refine ⟨gf, hload, deterministic_run hS hden hneg ht.scope h0 ht.deterministic hunits
    (determines_prepared hw ht), fun σ τ hK => ?_⟩
  have hindex : ∀ name ∈ gf.names,
      (prepareGatesFormula c gf).circuit.index name = d.index name :=
    fun name hname => (Circuit.index_mono hd (registered_of_mem_names hname)).symm
  have hfinal : gf.targetsHold (gf.evaluate fun name => τ (d.index name)) =
      gf.targetsHold (gf.evaluate fun name =>
        τ ((prepareGatesFormula c gf).circuit.index name)) := by
    refine GatedFormula.targetsHold_congr fun name hname => evaluate_congr hw ?_ hname
    intro a ha
    rw [hindex a (hw.mem_names.mpr (Finset.mem_union_left _ ha))]
  rw [hfinal, Bool.eq_iff_iff, ← exists_solution_iff hw τ]
  constructor
  · intro h
    obtain ⟨τ', hagree, hsat⟩ := satisfiable_of_denote hS hK ht.scope h0 h
    exact ⟨τ', hagree, (ht.equivalent τ').symm.trans hsat⟩
  · rintro ⟨τ', hagree, hsat⟩
    exact denote_of_sat hK ht.scope h0 hagree ((ht.equivalent τ').trans hsat)

end

/-- A formula, a file with an unknown line, and the formula again, from a file. -/
def orCalls : List GateCall :=
  [.formula (fun _ => orRun) orFormula, .file (fun _ => orRun) "bad.bc" (some "I a\nX\n"),
    .file (fun _ => orRun) "or.bc" (some "I a\nI b\nG g := O a b\nT g\n")]

theorem orCalls_served : Served Klay.reference usedCircuit orCalls := by
  have hagain : prepareGatesFormula (prepareGatesFormula usedCircuit orFormula).circuit orFormula =
      prepareGatesFormula usedCircuit orFormula := rfl
  refine .cons ?_ (.cons ?_ (.cons ?_ (.nil _)))
  · rintro gf ⟨⟩
    exact ⟨orFormula_wellFormed, orRun_isRun⟩
  · rintro gf ⟨⟩
  · intro gf h
    have hparse : parseBcFile "or.bc" (some "I a\nI b\nG g := O a b\nT g\n") = .ok orFormula := rfl
    obtain rfl : orFormula = gf := Except.ok.inj (hparse.symm.trans h)
    refine ⟨orFormula_wellFormed, ?_⟩
    show (prepareGatesFormula (prepareGatesFormula usedCircuit orFormula).circuit orFormula).IsRun
      orRun
    rw [hagain]
    exact orRun_isRun

end Kompyle
