import Kompyle.CircuitLeaves
import Kompyle.CompileCnf
import Kompyle.FreeVariables
import Kompyle.GateSemantics
import Mathlib.Order.Interval.Finset.Nat

namespace Kompyle

open WeightedCount

theorem getD_excludeStep (mask : List Bool) (g : BcGate) (v : Nat) :
    (excludeStep mask g).getD v false = true ↔
      mask.getD v false = true ∧ (g.gate_type = .IDENTITY → g.output.var ≠ v) := by
  have hset : (mask.set g.output.var false).getD v false = true ↔
      mask.getD v false = true ∧ g.output.var ≠ v := by
    rw [List.getD_eq_getElem?_getD, List.getD_eq_getElem?_getD]
    by_cases hv : g.output.var = v
    · rw [hv, List.getElem?_set_self']
      cases mask[v]? <;> simp
    · rw [List.getElem?_set_ne hv]
      simp [hv]
  rw [excludeStep]
  by_cases hg : g.gate_type = .IDENTITY
  · rw [if_pos hg, hset]
    simp only [hg, true_imp_iff]
  · rw [if_neg hg]
    simp only [hg, false_imp_iff, and_true]

theorem getD_foldl_excludeStep (gs : List BcGate) (mask : List Bool) (v : Nat) :
    (gs.foldl excludeStep mask).getD v false = true ↔ mask.getD v false = true ∧
      ∀ g ∈ gs, g.gate_type = .IDENTITY → g.output.var ≠ v := by
  induction gs generalizing mask with
  | nil => simp
  | cons g gs ih => rw [List.foldl_cons, ih, getD_excludeStep, List.forall_mem_cons, and_assoc]

theorem isMasked_buildExclusionMask (pm : ProblemManagerCircuit) (v : Nat) :
    isMasked (buildExclusionMask pm) v = true ↔
      v ≤ pm.nbVar ∧ ∀ g ∈ pm.gates, g.gate_type = .IDENTITY → g.output.var ≠ v := by
  have hreplicate : (List.replicate (pm.nbVar + 1) true).getD v false = true ↔ v ≤ pm.nbVar := by
    rw [List.getD_eq_getElem?_getD, List.getElem?_replicate]
    split
    next h => simp; omega
    next h => simp; omega
  rw [isMasked_eq_getD, buildExclusionMask, getD_foldl_excludeStep, hreplicate]

def ProblemManagerCircuit.Occurs (pm : ProblemManagerCircuit) (v : Nat) : Prop :=
  ∃ l ∈ pm.lits, l.var = v

/-- What is asked of a d4 run on the problem: it is deterministic and decomposable over all
registered variables, it is equivalent to the problem, and a variable that the problem does not
mention is at most left free. -/
structure Prepared.IsRun (p : Prepared) (t : CallTree) : Prop where
  scope : t.HasScope (Finset.Icc 1 p.circuit.nbVars)
  deterministic : t.Deterministic
  plainTops : t.PlainTops
  mentioned : ∀ v ∈ t.mentioned, v ∈ Finset.Icc 1 p.circuit.nbVars
  equivalent : ∀ σ, t.sat σ = p.problem.sat σ
  units : t.EachBranch fun e => ∀ l ∈ e.unitLits, p.problem.Occurs l.var

namespace GatedFormula

variable {gf : GatedFormula}

/-- The name-level problem: every gate and every target. -/
def solves (gf : GatedFormula) (env : String → Bool) : Bool :=
  (gf.logicGates.all fun g => env g.output == g.value env) && gf.targetsHold env

theorem solves_iff {env : String → Bool} : gf.solves env = true ↔
    (∀ g ∈ gf.logicGates, env g.output = g.value env) ∧ gf.targetsHold env = true := by
  simp [solves]

theorem mem_names_of_mem {g : Gate} (hg : g ∈ gf.gates_) (h : tokenNeg g.output = false) :
    g.output ∈ gf.names := by
  have hname : tokenName g.output = g.output := tokenName_of_plain h
  have hmem : tokenName g.output ∈ gf.names := by
    refine List.mem_map_of_mem (List.mem_flatMap.mpr ⟨g, hg, ?_⟩)
    unfold Gate.tokens
    split <;> simp
  rwa [hname] at hmem

section

variable (hw : gf.WellFormed)

include hw

theorem WellFormed.mem_names {name : String} :
    name ∈ gf.names ↔ name ∈ gf.inputs ∪ gf.outputs := by
  rw [Finset.mem_union]
  refine ⟨hw.defined name, ?_⟩
  rintro (h | h)
  · obtain ⟨g, hg, hk, rfl⟩ := mem_inputs.mp h
    exact mem_names_of_mem hg (hw.plain g hg (by simp [hk]))
  · obtain ⟨g, hg, rfl⟩ := mem_outputs.mp h
    obtain ⟨hmem, hk⟩ := mem_logicGates.mp hg
    exact mem_names_of_mem hmem (hw.plain g hmem (by rcases hk with hk | hk <;> simp [hk]))

theorem WellFormed.solves_congr {env env' : String → Bool}
    (h : ∀ name ∈ gf.inputs ∪ gf.outputs, env name = env' name) :
    gf.solves env = gf.solves env' := by
  have hgate : ∀ g ∈ gf.logicGates,
      (env g.output = g.value env ↔ env' g.output = g.value env') := by
    intro g hg
    have hout : g.output ∈ gf.inputs ∪ gf.outputs :=
      Finset.mem_union_right _ (mem_outputs.mpr ⟨g, hg, rfl⟩)
    rw [h _ hout, Gate.value_congr fun tok ht => h _ (hw.mem_names.mp (names_inputs hg ht))]
  rw [Bool.eq_iff_iff, solves_iff, solves_iff,
    targetsHold_congr fun name hname => h name (hw.mem_names.mp hname)]
  exact and_congr_left fun _ => forall₂_congr hgate

theorem WellFormed.solves_union {A C : Finset String} (hA : A ⊆ gf.inputs) (hC : C ⊆ gf.outputs) :
    gf.solves (indicator (A ∪ C)) = true ↔
      C = gf.outputs.filter (fun o => gf.evaluate (indicator A) o) ∧
        gf.targetsHold (gf.evaluate (indicator A)) = true := by
  have hin : ∀ name ∈ gf.inputs, indicator (A ∪ C) name = indicator A name :=
    fun name hname => indicator_union_left hw.disjoint hC hname
  have hout : ∀ name ∈ gf.outputs, indicator (A ∪ C) name = indicator C name :=
    fun name hname => indicator_union_right hw.disjoint hA hname
  constructor
  · intro h
    obtain ⟨hgates, htargets⟩ := solves_iff.mp h
    have heval : ∀ name ∈ gf.inputs ∪ gf.outputs,
        indicator (A ∪ C) name = gf.evaluate (indicator A) name :=
      fun name hname => hw.evaluate_unique hin hgates (Finset.mem_union.mp hname)
    refine ⟨Finset.ext fun o => ?_, ?_⟩
    · rw [Finset.mem_filter]
      have hmem : ∀ ho : o ∈ gf.outputs, (gf.evaluate (indicator A) o = true ↔ o ∈ C) := by
        intro ho
        rw [← heval o (Finset.mem_union_right _ ho), hout o ho]
        simp [indicator]
      exact ⟨fun ho => ⟨hC ho, (hmem (hC ho)).mpr ho⟩, fun ho => (hmem ho.1).mp ho.2⟩
    · rwa [← targetsHold_congr fun name hname => heval name (hw.mem_names.mp hname)]
  · rintro ⟨rfl, htargets⟩
    have heval : ∀ name ∈ gf.inputs ∪ gf.outputs,
        indicator (A ∪ gf.outputs.filter fun o => gf.evaluate (indicator A) o) name =
          gf.evaluate (indicator A) name := by
      intro name hname
      rcases Finset.mem_union.mp hname with hname | hname
      · rw [hin name hname, hw.evaluate_input hname]
      · rw [hout name hname]
        simp [indicator, hname]
    rw [hw.solves_congr heval, solves_iff]
    exact ⟨fun g hg => hw.evaluate_gate hg, htargets⟩

end

end GatedFormula

section

variable {c : Circuit} {gf : GatedFormula} {v : Nat}

theorem registered_of_mem_names {name : String} (h : name ∈ gf.names) :
    name ∈ (prepareGatesFormula c gf).circuit.registered := by
  rw [(prepareGatesFormula_spec c gf).1]
  exact Circuit.mem_after.mpr (Or.inr h)

theorem prepared_translates :
    (prepareGatesFormula c gf).Translates (prepareGatesFormula c gf).circuit.index gf := by
  obtain ⟨hc, htr, -⟩ := prepareGatesFormula_spec c gf
  exact htr _ (by rw [hc])

section

variable (hw : gf.WellFormed)

include hw

theorem index_injOn :
    Set.InjOn (prepareGatesFormula c gf).circuit.index
      ((gf.inputs ∪ gf.outputs : Finset String) : Set String) :=
  (Circuit.index_bijOn _).injOn.mono
    fun _ h => registered_of_mem_names (hw.mem_names.mpr (Finset.mem_coe.mp h))

/-- Of the registered variables only those of declared inputs are kept in the circuit. -/
theorem isMasked_iff (hv : v ≤ (prepareGatesFormula c gf).circuit.nbVars) :
    isMasked (prepareGatesFormula c gf).isGateVar v = true ↔
      ∀ a ∈ gf.inputs, (prepareGatesFormula c gf).circuit.index a ≠ v := by
  have hvar : ∀ g ∈ gf.gates_, g.kind = .kIdentity →
      (tokenLit (prepareGatesFormula c gf).circuit.index g.output).var =
        (prepareGatesFormula c gf).circuit.index g.output := by
    intro g hg hk
    rw [tokenLit_var, tokenName_of_plain (hw.plain g hg (by simp [hk]))]
  have hmask : isMasked (prepareGatesFormula c gf).isGateVar v = true ↔
      ∀ b ∈ (prepareGatesFormula c gf).problem.gates, b.gate_type = .IDENTITY →
        b.output.var ≠ v := by
    refine (isMasked_buildExclusionMask _ v).trans (and_iff_right ?_)
    exact hv
  rw [hmask, prepared_translates.gates]
  constructor
  · intro h a ha
    obtain ⟨g, hg, hk, rfl⟩ := GatedFormula.mem_inputs.mp ha
    have hb := h _ (List.mem_filterMap.mpr ⟨g, hg, by rw [hk]⟩) rfl
    rwa [hvar g hg hk] at hb
  · intro h b hb htype
    obtain ⟨g, hg, hgb⟩ := List.mem_filterMap.mp hb
    cases hk : g.kind with
    | kIdentity =>
      simp only [hk, Option.some.injEq] at hgb
      rw [← hgb, hvar g hg hk]
      exact h g.output (GatedFormula.mem_inputs.mpr ⟨g, hg, hk, rfl⟩)
    | kTarget => simp [hk] at hgb
    | kAnd =>
      simp only [hk, Option.some.injEq] at hgb
      rw [← hgb] at htype
      cases htype
    | kOr =>
      simp only [hk, Option.some.injEq] at hgb
      rw [← hgb] at htype
      cases htype

theorem occurs_iff : (prepareGatesFormula c gf).problem.Occurs v ↔
    v ∈ (gf.inputs ∪ gf.outputs).image (prepareGatesFormula c gf).circuit.index := by
  rw [Finset.mem_image]
  constructor
  · rintro ⟨l, hl, rfl⟩
    obtain ⟨name, hname, hvar⟩ := prepared_translates.exists_token hl
    exact ⟨name, hw.mem_names.mp hname, hvar.symm⟩
  · rintro ⟨name, hname, rfl⟩
    have hgate : ∃ g ∈ gf.gates_, g.kind ≠ .kTarget ∧ g.output = name := by
      rcases Finset.mem_union.mp hname with h | h
      · obtain ⟨g, hg, hk, rfl⟩ := GatedFormula.mem_inputs.mp h
        exact ⟨g, hg, by simp [hk], rfl⟩
      · obtain ⟨g, hg, rfl⟩ := GatedFormula.mem_outputs.mp h
        obtain ⟨hmem, hk⟩ := GatedFormula.mem_logicGates.mp hg
        exact ⟨g, hmem, by rcases hk with hk | hk <;> simp [hk], rfl⟩
    obtain ⟨g, hg, hk, rfl⟩ := hgate
    refine ⟨tokenLit (prepareGatesFormula c gf).circuit.index g.output, ?_, ?_⟩
    · have hb : ∃ b ∈ gf.gatesUnder (prepareGatesFormula c gf).circuit.index,
          b.output = tokenLit (prepareGatesFormula c gf).circuit.index g.output := by
        cases hkind : g.kind with
        | kTarget => exact absurd hkind hk
        | kAnd => exact ⟨_, List.mem_filterMap.mpr ⟨g, hg, by rw [hkind]⟩, rfl⟩
        | kOr => exact ⟨_, List.mem_filterMap.mpr ⟨g, hg, by rw [hkind]⟩, rfl⟩
        | kIdentity => exact ⟨_, List.mem_filterMap.mpr ⟨g, hg, by rw [hkind]⟩, rfl⟩
      obtain ⟨b, hb, hout⟩ := hb
      rw [ProblemManagerCircuit.lits, prepared_translates.gates, ← hout]
      exact List.mem_append_left _ (List.mem_flatMap.mpr ⟨b, hb, List.mem_cons_self⟩)
    · rw [tokenLit_var, tokenName_of_plain (hw.plain g hg hk)]

theorem sat_eq_solves (σ : Nat → Bool) : (prepareGatesFormula c gf).problem.sat σ =
    gf.solves fun name => σ ((prepareGatesFormula c gf).circuit.index name) := by
  rw [Bool.eq_iff_iff, Prepared.Translates.sat_iff hw σ prepared_translates,
    GatedFormula.solves_iff]

theorem unflippable_output {t : CallTree} (ht : (prepareGatesFormula c gf).IsRun t)
    {o : String} (ho : o ∈ gf.outputs) :
    t.Unflippable ((prepareGatesFormula c gf).circuit.index o) := by
  intro σ hσ
  by_contra hflip
  rw [ht.equivalent, sat_eq_solves hw, GatedFormula.solves_iff] at hσ
  rw [ht.equivalent, sat_eq_solves hw, Bool.not_eq_false, GatedFormula.solves_iff] at hflip
  have hmem : o ∈ gf.inputs ∪ gf.outputs := Finset.mem_union_right _ ho
  have hin : ∀ a ∈ gf.inputs, Function.update σ ((prepareGatesFormula c gf).circuit.index o)
      (!σ ((prepareGatesFormula c gf).circuit.index o))
      ((prepareGatesFormula c gf).circuit.index a) =
        σ ((prepareGatesFormula c gf).circuit.index a) := by
    intro a ha
    refine Function.update_of_ne (fun he => ?_) _ σ
    have hao := index_injOn hw (Finset.mem_coe.mpr (Finset.mem_union_left _ ha))
      (Finset.mem_coe.mpr hmem) he
    exact Finset.disjoint_left.mp hw.disjoint ha (hao ▸ ho)
  let env : String → Bool := fun name => σ ((prepareGatesFormula c gf).circuit.index name)
  have hbefore : env o = gf.evaluate env o :=
    hw.evaluate_unique (fun _ _ => rfl) hσ.1 (Or.inr ho)
  have hafter := hw.evaluate_unique (α := env) hin hflip.1 (Or.inr ho)
  rw [Function.update_self, ← hbefore] at hafter
  simp [env] at hafter

end

open Classical in
noncomputable def foreign (p : Prepared) : Finset Nat :=
  (Finset.Icc 1 p.circuit.nbVars).filter fun v => ¬ p.problem.Occurs v

theorem mem_foreign {p : Prepared} :
    v ∈ foreign p ↔ v ∈ Finset.Icc 1 p.circuit.nbVars ∧ ¬ p.problem.Occurs v := by
  classical
  exact Finset.mem_filter

theorem foreign_masked (hw : gf.WellFormed) (hv : v ∈ foreign (prepareGatesFormula c gf)) :
    isMasked (prepareGatesFormula c gf).isGateVar v = true := by
  obtain ⟨hIcc, hocc⟩ := mem_foreign.mp hv
  refine (isMasked_iff hw (Finset.mem_Icc.mp hIcc).2).mpr fun a ha he => hocc ?_
  exact (occurs_iff hw).mpr (Finset.mem_image.mpr ⟨a, Finset.mem_union_left _ ha, he⟩)

theorem scope_sdiff_foreign (hw : gf.WellFormed) :
    Finset.Icc 1 (prepareGatesFormula c gf).circuit.nbVars \ foreign (prepareGatesFormula c gf) =
      (gf.inputs ∪ gf.outputs).image (prepareGatesFormula c gf).circuit.index := by
  ext v
  rw [Finset.mem_sdiff, mem_foreign, ← occurs_iff hw]
  constructor
  · rintro ⟨hIcc, hn⟩
    by_contra hocc
    exact hn ⟨hIcc, hocc⟩
  · intro hocc
    refine ⟨?_, fun h => h.2 hocc⟩
    obtain ⟨l, hl, rfl⟩ := hocc
    have hvar := (prepareGatesFormula_spec c gf).2.2.var l hl
    exact Finset.mem_Icc.mpr hvar

theorem freeVars_foreign (hw : gf.WellFormed) {t : CallTree}
    (ht : (prepareGatesFormula c gf).IsRun t) :
    t.EachBranch fun e => ∀ v ∈ e.freeVars,
      isMasked (prepareGatesFormula c gf).isGateVar v = true →
        v ∈ foreign (prepareGatesFormula c gf) := by
  have hfix : ∀ v ∈ Finset.Icc 1 (prepareGatesFormula c gf).circuit.nbVars,
      (isMasked (prepareGatesFormula c gf).isGateVar v = true ∧
        v ∉ foreign (prepareGatesFormula c gf)) → t.Unflippable v := by
    intro v hv ⟨hm, hnf⟩
    have hocc : v ∈ (gf.inputs ∪ gf.outputs).image (prepareGatesFormula c gf).circuit.index := by
      rw [← scope_sdiff_foreign hw]
      exact Finset.mem_sdiff.mpr ⟨hv, hnf⟩
    obtain ⟨name, hname, rfl⟩ := Finset.mem_image.mp hocc
    rcases Finset.mem_union.mp hname with ha | ho
    · exact absurd rfl ((isMasked_iff hw (Finset.mem_Icc.mp hv).2).mp hm name ha)
    · exact unflippable_output hw ht ho
  refine CallTree.live_mono (fun _ h => h) (fun e h v hv hm => ?_) (fun _ h => h)
    (CallTree.eachBranch_unflippable ht.scope hfix)
  by_contra hnf
  exact h v hv ⟨hm, hnf⟩

theorem index_le (hw : gf.WellFormed) {name : String} (h : name ∈ gf.inputs ∪ gf.outputs) :
    (prepareGatesFormula c gf).circuit.index name ≤ (prepareGatesFormula c gf).circuit.nbVars :=
  ((Circuit.index_bijOn _).mapsTo (registered_of_mem_names (hw.mem_names.mpr h))).2

theorem output_masked (hw : gf.WellFormed) {o : String} (ho : o ∈ gf.outputs) :
    isMasked (prepareGatesFormula c gf).isGateVar
      ((prepareGatesFormula c gf).circuit.index o) = true := by
  have hmem : o ∈ gf.inputs ∪ gf.outputs := Finset.mem_union_right _ ho
  refine (isMasked_iff hw (index_le hw hmem)).mpr fun a ha he => ?_
  have hao : a = o := index_injOn hw (Finset.mem_coe.mpr (Finset.mem_union_left _ ha))
    (Finset.mem_coe.mpr hmem) he
  exact Finset.disjoint_left.mp hw.disjoint ha (hao ▸ ho)

theorem input_kept (hw : gf.WellFormed) {a : String} (ha : a ∈ gf.inputs) :
    isMasked (prepareGatesFormula c gf).isGateVar
      ((prepareGatesFormula c gf).circuit.index a) = false := by
  rw [← Bool.not_eq_true, isMasked_iff hw (index_le hw (Finset.mem_union_left _ ha))]
  exact fun h => h a ha rfl

/-- Counting over the variables of the problem is counting over the inputs. -/
theorem count_problem (hw : gf.WellFormed) {R : Type*} [CommSemiring R] (W : Int → R) :
    count (maskWeight (prepareGatesFormula c gf).isGateVar W)
        ((gf.inputs ∪ gf.outputs).image (prepareGatesFormula c gf).circuit.index)
        (prepareGatesFormula c gf).problem.sat =
      count (fun a b => literalWeight W ((prepareGatesFormula c gf).circuit.index a) b) gf.inputs
        (fun α => gf.targetsHold (gf.evaluate α)) := by
  let index := (prepareGatesFormula c gf).circuit.index
  have hsolves : ∀ A ⊆ gf.inputs ∪ gf.outputs,
      (prepareGatesFormula c gf).problem.sat (indicator (A.image index)) =
        gf.solves (indicator A) := by
    intro A hA
    rw [sat_eq_solves hw]
    refine hw.solves_congr fun name hname => ?_
    show decide (index name ∈ A.image index) = decide (name ∈ A)
    exact decide_eq_decide.mpr (mem_image_of_injOn (index_injOn hw) hA hname)
  rw [count_image (index_injOn hw) hsolves,
    count_determined (g := fun α => gf.targetsHold (gf.evaluate α)) hw.disjoint _
      (fun A => gf.outputs.filter fun o => gf.evaluate (indicator A) o)
      (fun A _ => Finset.filter_subset _ _) (fun A hA C hC => hw.solves_union hA hC)]
  · refine count_congr (fun a ha b => ?_) fun _ _ => rfl
    rw [maskWeight, input_kept hw ha]
    rfl
  · intro o ho b
    rw [maskWeight, output_masked hw ho]
    rfl

end

/-- Gate elimination: the circuit that CompileFromGatesFormulaUsingD4v2 returns for a run has
literals of declared inputs only, and evaluates to the weighted count of the inputs under which
bottom-up evaluation makes every target true. -/
theorem gateElimination {K : Klay} {R : Type*} [CommSemiring R] {w : Nat → R} {W : Int → R}
    (hK : K.Evaluates (Node.sumProduct w) W) (hL : K.KeepsLeaves) (c : Circuit)
    {gf : GatedFormula} (hw : gf.WellFormed) {t : CallTree}
    (ht : (prepareGatesFormula c gf).IsRun t) :
    (∀ ix ∈ (t.run (klayCircuitOperation K (prepareGatesFormula c gf).isGateVar)).leaves,
      ∃ a ∈ gf.inputs, ix = K.internalVal ((prepareGatesFormula c gf).circuit.index a) ∨
        ix = K.internalVal (-((prepareGatesFormula c gf).circuit.index a : Int))) ∧
    (t.run (klayCircuitOperation K (prepareGatesFormula c gf).isGateVar)).value w =
      count (fun a b => literalWeight W ((prepareGatesFormula c gf).circuit.index a) b) gf.inputs
        (fun α => gf.targetsHold (gf.evaluate α)) := by
  constructor
  · intro ix hix
    obtain ⟨v, hv, hm, hlit⟩ := leaves_run hL t hix
    have hn := (Finset.mem_Icc.mp (ht.mentioned v hv)).2
    have hex : ∃ a ∈ gf.inputs, (prepareGatesFormula c gf).circuit.index a = v := by
      by_contra hn'
      push Not at hn'
      rw [(isMasked_iff hw hn).mpr hn'] at hm
      cases hm
    obtain ⟨a, ha, rfl⟩ := hex
    exact ⟨a, ha, hlit⟩
  · have hunits : t.EachBranch fun e => ∀ l ∈ e.unitLits,
        l.var ∉ foreign (prepareGatesFormula c gf) :=
      CallTree.live_mono (fun _ h => h)
        (fun e (h : ∀ l ∈ e.unitLits, (prepareGatesFormula c gf).problem.Occurs l.var) l hl hf =>
          (mem_foreign.mp hf).2 (h l hl)) (fun _ h => h) ht.units
    have hsat : t.sat = (prepareGatesFormula c gf).problem.sat := funext ht.equivalent
    rw [value_run hK (fun v hv => foreign_masked hw hv) ht.scope ht.deterministic ht.plainTops
      hunits (freeVars_foreign hw ht), scope_sdiff_foreign hw, hsat, count_problem hw]

def orFormula : GatedFormula :=
  ((GatedFormula.empty.addInput "a").addInput "b").addOr "g" ["a", "b"] |>.addTarget "g"

theorem orFormula_wellFormed : orFormula.WellFormed where
  built := by decide
  plain := by decide
  defined := by decide
  disjoint := by decide
  unique := by decide
  acyclic := ⟨fun name => if name = "g" then 1 else 0, by decide⟩

def usedCircuit : Circuit := Circuit.fresh.after ["z"]

def orRun : CallTree :=
  .manageDeterministOr [⟨.createTop, [⟨2, false⟩, ⟨4, false⟩], [3, 1]⟩,
    ⟨.createTop, [⟨2, true⟩, ⟨3, false⟩, ⟨4, false⟩], [1]⟩]

theorem orRun_isRun : (prepareGatesFormula usedCircuit orFormula).IsRun orRun where
  scope := by
    refine .manageDeterministOr (fun _ => ∅) ?_ fun e he => ?_
    · unfold DataBranch.Partitions
      decide
    · rcases List.mem_pair.mp he with rfl | rfl <;> exact .createTop
  deterministic := by
    refine .manageDeterministOr ?_ (fun _ _ => trivial) fun e he => ?_
    · exact List.pairwise_pair.mpr ⟨⟨2, false⟩, by simp, by decide⟩
    · rcases List.mem_pair.mp he with rfl | rfl <;> exact .createTop
  plainTops := by
    refine .manageDeterministOr trivial (fun _ _ => trivial) fun e he => ?_
    rcases List.mem_pair.mp he with rfl | rfl <;> exact .createTop
  mentioned := by decide
  equivalent := by
    intro σ
    have hgates : (prepareGatesFormula usedCircuit orFormula).problem.gates =
        [⟨.IDENTITY, ⟨2, false⟩, [⟨2, false⟩]⟩, ⟨.IDENTITY, ⟨3, false⟩, [⟨3, false⟩]⟩,
          ⟨.OR, ⟨4, false⟩, [⟨2, false⟩, ⟨3, false⟩]⟩] := by decide
    have htargets : (prepareGatesFormula usedCircuit orFormula).problem.trueLiterals =
        [⟨4, false⟩] := by decide
    rw [ProblemManagerCircuit.sat, hgates, htargets]
    cases h₂ : σ 2 <;> cases h₃ : σ 3 <;> cases h₄ : σ 4 <;>
      simp [orRun, CallTree.sat, satOperation, DataBranch.unitsHold, CallTree.runBranch,
        BcGate.holds, Lit.holds, h₂, h₃, h₄]
  units := by
    refine .manageDeterministOr trivial (fun e he => ?_) fun e he => ?_
    · unfold ProblemManagerCircuit.Occurs
      revert e
      decide
    · rcases List.mem_pair.mp he with rfl | rfl <;> exact .createTop

theorem orRun_weightedCount :
    ((∀ ix ∈ (orRun.run (klayCircuitOperation Klay.reference
        (prepareGatesFormula usedCircuit orFormula).isGateVar)).leaves,
      ∃ a ∈ orFormula.inputs,
        ix = Klay.literalCode ((prepareGatesFormula usedCircuit orFormula).circuit.index a) ∨
          ix = Klay.literalCode
            (-((prepareGatesFormula usedCircuit orFormula).circuit.index a : Int))) ∧
      (orRun.run (klayCircuitOperation Klay.reference
          (prepareGatesFormula usedCircuit orFormula).isGateVar)).value id =
        count (fun a b => literalWeight Klay.literalCode
            ((prepareGatesFormula usedCircuit orFormula).circuit.index a) b) orFormula.inputs
          (fun α => orFormula.targetsHold (orFormula.evaluate α))) ∧
    count (fun a b => literalWeight Klay.literalCode
        ((prepareGatesFormula usedCircuit orFormula).circuit.index a) b) orFormula.inputs
      (fun α => orFormula.targetsHold (orFormula.evaluate α)) = 82 :=
  ⟨gateElimination (Klay.reference_evaluates (sumProduct_absorbs id))
    Klay.reference_simplifies.keepsLeaves usedCircuit orFormula_wellFormed orRun_isRun,
    by decide⟩

end Kompyle
