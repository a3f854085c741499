import Kompyle.NameConsistency
import Mathlib.Data.Finset.Card
import Mathlib.Logic.Function.Iterate

namespace Kompyle

def tokenHolds (env : String → Bool) (tok : String) : Bool := env (tokenName tok) == !tokenNeg tok

def BcGate.holds (σ : Nat → Bool) (g : BcGate) : Bool :=
  match g.gate_type with
  | .OR => g.output.holds σ == g.input.any (Lit.holds σ)
  | .AND | .IDENTITY => g.output.holds σ == g.input.all (Lit.holds σ)

def ProblemManagerCircuit.sat (pm : ProblemManagerCircuit) (σ : Nat → Bool) : Bool :=
  pm.gates.all (BcGate.holds σ) && pm.trueLiterals.all (Lit.holds σ)

theorem holds_tokenLit (σ : Nat → Bool) (index : String → Nat) (tok : String) :
    (tokenLit index tok).holds σ = tokenHolds (fun name => σ (index name)) tok := by
  unfold tokenLit tokenHolds
  cases tokenNeg tok <;> rfl

namespace GatedFormula

def Gate.isLogic (g : Gate) : Bool := g.kind = .kAnd || g.kind = .kOr

def Gate.value (env : String → Bool) (g : Gate) : Bool :=
  match g.kind with
  | .kOr => g.inputs.any (tokenHolds env)
  | _ => g.inputs.all (tokenHolds env)

def logicGates (gf : GatedFormula) : List Gate := gf.gates_.filter Gate.isLogic

def inputs (gf : GatedFormula) : Finset String :=
  ((gf.gates_.filter fun g => g.kind = .kIdentity).map Gate.output).toFinset

def outputs (gf : GatedFormula) : Finset String := (gf.logicGates.map Gate.output).toFinset

def round (gf : GatedFormula) (env : String → Bool) (name : String) : Bool :=
  match gf.logicGates.find? fun g => g.output = name with
  | some g => g.value env
  | none => env name

/-- Bottom-up evaluation of the gates under an assignment of the inputs: after as many rounds as
there are gates, no value changes any more. -/
def evaluate (gf : GatedFormula) (α : String → Bool) : String → Bool :=
  (round gf)^[gf.gates_.length] α

def targetsHold (gf : GatedFormula) (env : String → Bool) : Bool :=
  gf.gates_.all fun g => g.kind ≠ .kTarget || tokenHolds env g.output

/-- Every name is a declared input or the output of one AND or OR gate, and the gates have no
cycle. That add_input lists the name itself is how a formula is built. -/
structure WellFormed (gf : GatedFormula) : Prop where
  built : ∀ g ∈ gf.gates_, g.kind = .kIdentity → g.inputs = [g.output]
  plain : ∀ g ∈ gf.gates_, g.kind ≠ .kTarget → tokenNeg g.output = false
  defined : ∀ name ∈ gf.names, name ∈ gf.inputs ∨ name ∈ gf.outputs
  disjoint : Disjoint gf.inputs gf.outputs
  unique : ∀ g ∈ gf.logicGates, ∀ h ∈ gf.logicGates, g.output = h.output → g = h
  acyclic : ∃ rank : String → Nat, ∀ g ∈ gf.logicGates, ∀ tok ∈ g.inputs,
    rank (tokenName tok) < rank g.output

variable {gf : GatedFormula} {env env' α : String → Bool}

theorem mem_inputs {name : String} :
    name ∈ gf.inputs ↔ ∃ g ∈ gf.gates_, g.kind = .kIdentity ∧ g.output = name := by
  simp [inputs, and_assoc]

theorem mem_outputs {name : String} :
    name ∈ gf.outputs ↔ ∃ g ∈ gf.logicGates, g.output = name := by
  simp [outputs]

theorem mem_logicGates {g : Gate} :
    g ∈ gf.logicGates ↔ g ∈ gf.gates_ ∧ (g.kind = .kAnd ∨ g.kind = .kOr) := by
  simp [logicGates, Gate.isLogic]

theorem Gate.value_congr {g : Gate}
    (h : ∀ tok ∈ g.inputs, env (tokenName tok) = env' (tokenName tok)) :
    g.value env = g.value env' := by
  have htok : ∀ tok ∈ g.inputs, tokenHolds env tok = tokenHolds env' tok := by
    intro tok ht
    rw [tokenHolds, tokenHolds, h tok ht]
  unfold Gate.value
  split
  · rw [Bool.eq_iff_iff, List.any_eq_true, List.any_eq_true]
    exact exists_congr fun tok => and_congr_right fun ht => by rw [htok tok ht]
  · rw [Bool.eq_iff_iff, List.all_eq_true, List.all_eq_true]
    exact forall₂_congr fun tok ht => by rw [htok tok ht]

theorem round_of_notMem {name : String} (h : name ∉ gf.outputs) : gf.round env name = env name := by
  have hnone : gf.logicGates.find? (fun g => g.output = name) = none := by
    rw [List.find?_eq_none]
    intro g hg hout
    exact h (mem_outputs.mpr ⟨g, hg, by simpa using hout⟩)
  simp only [round, hnone]

theorem iterate_of_notMem {name : String} (h : name ∉ gf.outputs) (k : Nat) :
    (round gf)^[k] α name = α name := by
  induction k with
  | zero => rfl
  | succ k ih => rw [Function.iterate_succ_apply', round_of_notMem h, ih]

theorem names_inputs {g : Gate} (hg : g ∈ gf.logicGates) {tok : String}
    (ht : tok ∈ g.inputs) : tokenName tok ∈ gf.names := by
  obtain ⟨hmem, hkind⟩ := mem_logicGates.mp hg
  refine List.mem_map_of_mem (List.mem_flatMap.mpr ⟨g, hmem, ?_⟩)
  rcases hkind with hk | hk <;> simp [Gate.tokens, hk, ht]

section

variable (hw : gf.WellFormed)

include hw

theorem WellFormed.round_output {g : Gate} (hg : g ∈ gf.logicGates) :
    gf.round env g.output = g.value env := by
  cases hf : gf.logicGates.find? (fun h => h.output = g.output) with
  | none =>
    have := List.find?_eq_none.mp hf g hg
    simp at this
  | some h =>
    have hout : h.output = g.output := by simpa using List.find?_some hf
    have hgh := hw.unique h (List.mem_of_find?_eq_some hf) g hg hout
    subst hgh
    simp only [round, hf]

/-- There is a rank of the names that counts gates below a gate, and so ends at their number. -/
theorem WellFormed.exists_level : ∃ level : String → Nat,
    (∀ name ∈ gf.outputs, 0 < level name) ∧ (∀ name, level name ≤ gf.gates_.length) ∧
      ∀ g ∈ gf.logicGates, ∀ tok ∈ g.inputs, tokenName tok ∈ gf.outputs →
        level (tokenName tok) < level g.output := by
  obtain ⟨rank, hrank⟩ := hw.acyclic
  refine ⟨fun name => (gf.outputs.filter fun o => rank o ≤ rank name).card, ?_, ?_, ?_⟩
  · intro name hname
    exact Finset.card_pos.mpr ⟨name, Finset.mem_filter.mpr ⟨hname, Nat.le_refl _⟩⟩
  · intro name
    have hcard : gf.outputs.card ≤ gf.logicGates.length := by
      have := List.toFinset_card_le (gf.logicGates.map Gate.output)
      rwa [List.length_map] at this
    have hfilter := Finset.card_filter_le gf.outputs fun o => rank o ≤ rank name
    have hlen := List.length_filter_le Gate.isLogic gf.gates_
    unfold logicGates at hcard
    show (gf.outputs.filter fun o => rank o ≤ rank name).card ≤ gf.gates_.length
    omega
  · intro g hg tok ht _
    have hlt := hrank g hg tok ht
    have hout : g.output ∈ gf.outputs := mem_outputs.mpr ⟨g, hg, rfl⟩
    refine Finset.card_lt_card (Finset.ssubset_iff_of_subset ?_ |>.mpr ⟨g.output, ?_, ?_⟩)
    · intro o ho
      obtain ⟨hmem, hle⟩ := Finset.mem_filter.mp ho
      exact Finset.mem_filter.mpr ⟨hmem, by omega⟩
    · exact Finset.mem_filter.mpr ⟨hout, Nat.le_refl _⟩
    · intro ho
      have := (Finset.mem_filter.mp ho).2
      omega

theorem WellFormed.iterate_stable {level : String → Nat}
    (hpos : ∀ name ∈ gf.outputs, 0 < level name)
    (hlt : ∀ g ∈ gf.logicGates, ∀ tok ∈ g.inputs, tokenName tok ∈ gf.outputs →
      level (tokenName tok) < level g.output)
    (k : Nat) {j : Nat} (hkj : k ≤ j) {name : String} (hl : name ∈ gf.outputs → level name ≤ k) :
    (round gf)^[j] α name = (round gf)^[k] α name := by
  induction k generalizing j name with
  | zero =>
    have hn : name ∉ gf.outputs := by
      intro hm
      have := hpos name hm
      have := hl hm
      omega
    rw [iterate_of_notMem hn, iterate_of_notMem hn]
  | succ k ih =>
    by_cases hm : name ∈ gf.outputs
    · obtain ⟨g, hg, rfl⟩ := mem_outputs.mp hm
      obtain ⟨i, rfl⟩ := Nat.exists_eq_add_of_le hkj
      have hj : k + 1 + i = (k + i) + 1 := by omega
      rw [hj, Function.iterate_succ_apply', Function.iterate_succ_apply', hw.round_output hg,
        hw.round_output hg]
      refine Gate.value_congr fun tok ht => ih (by omega) fun hout => ?_
      have := hlt g hg tok ht hout
      have := hl hm
      omega
    · rw [iterate_of_notMem hm, iterate_of_notMem hm]

theorem WellFormed.evaluate_gate {g : Gate} (hg : g ∈ gf.logicGates) :
    gf.evaluate α g.output = g.value (gf.evaluate α) := by
  obtain ⟨level, hpos, hle, hlt⟩ := hw.exists_level
  have hstable := hw.iterate_stable (α := α) hpos hlt gf.gates_.length (Nat.le_succ _)
    fun _ => hle g.output
  rw [evaluate, ← hstable, Function.iterate_succ_apply', hw.round_output hg]

theorem WellFormed.evaluate_input {name : String} (h : name ∈ gf.inputs) :
    gf.evaluate α name = α name :=
  iterate_of_notMem (fun ho => Finset.disjoint_left.mp hw.disjoint h ho) _

theorem WellFormed.evaluate_unique (hin : ∀ name ∈ gf.inputs, env name = α name)
    (hgate : ∀ g ∈ gf.logicGates, env g.output = g.value env) {name : String}
    (hname : name ∈ gf.inputs ∨ name ∈ gf.outputs) : env name = gf.evaluate α name := by
  obtain ⟨rank, hrank⟩ := hw.acyclic
  induction hr : rank name using Nat.strongRecOn generalizing name with
  | _ r ih =>
    subst hr
    rcases hname with hname | hname
    · rw [hw.evaluate_input hname, hin name hname]
    · obtain ⟨g, hg, rfl⟩ := mem_outputs.mp hname
      rw [hgate g hg, hw.evaluate_gate hg]
      refine Gate.value_congr fun tok ht => ?_
      exact ih _ (hrank g hg tok ht) (hw.defined _ (names_inputs hg ht)) rfl

end

theorem targetsHold_congr (h : ∀ name ∈ gf.names, env name = env' name) :
    gf.targetsHold env = gf.targetsHold env' := by
  rw [targetsHold, targetsHold, Bool.eq_iff_iff, List.all_eq_true, List.all_eq_true]
  refine forall₂_congr fun g hg => ?_
  have hname : tokenName g.output ∈ gf.names := by
    refine List.mem_map_of_mem (List.mem_flatMap.mpr ⟨g, hg, ?_⟩)
    unfold Gate.tokens
    split <;> simp
  rw [tokenHolds, tokenHolds, h _ hname]

theorem tokenHolds_plain {tok : String} (h : tokenNeg tok = false) :
    tokenHolds env tok = env tok := by
  simp [tokenHolds, tokenName_of_plain h, h]

end GatedFormula

theorem holds_gate (σ : Nat → Bool) (index : String → Nat) (type : BcGateType)
    (g : GatedFormula.Gate) (htype : type = .OR ↔ g.kind = .kOr) :
    BcGate.holds σ ⟨type, tokenLit index g.output, g.inputs.map (tokenLit index)⟩ =
      (tokenHolds (fun name => σ (index name)) g.output ==
        g.value fun name => σ (index name)) := by
  have hany : (g.inputs.map (tokenLit index)).any (Lit.holds σ) =
      g.inputs.any (tokenHolds fun name => σ (index name)) := by
    rw [List.any_map]
    exact congrArg g.inputs.any (funext fun tok => holds_tokenLit σ index tok)
  have hall : (g.inputs.map (tokenLit index)).all (Lit.holds σ) =
      g.inputs.all (tokenHolds fun name => σ (index name)) := by
    rw [List.all_map]
    exact congrArg g.inputs.all (funext fun tok => holds_tokenLit σ index tok)
  obtain ⟨kind, output, inputs⟩ := g
  cases type <;> cases kind <;>
    simp_all [BcGate.holds, GatedFormula.Gate.value, holds_tokenLit]

section

variable {index : String → Nat} {gf : GatedFormula} (hw : gf.WellFormed) (σ : Nat → Bool)

include hw

/-- The gates of the problem hold where every AND and OR gate has the value of its inputs; the
IDENTITY gates ask for nothing. -/
theorem gatesUnder_hold_iff : (∀ b ∈ gf.gatesUnder index, b.holds σ = true) ↔
    ∀ g ∈ gf.logicGates, σ (index g.output) = g.value fun name => σ (index name) := by
  have houtput : ∀ g ∈ gf.gates_, g.kind ≠ .kTarget →
      tokenHolds (fun name => σ (index name)) g.output = σ (index g.output) :=
    fun g hg hk => GatedFormula.tokenHolds_plain (hw.plain g hg hk)
  have hid : ∀ g ∈ gf.gates_, g.kind = .kIdentity →
      (g.value fun name => σ (index name)) = tokenHolds (fun name => σ (index name)) g.output := by
    intro g hg hk
    simp [GatedFormula.Gate.value, hk, hw.built g hg hk]
  constructor
  · intro hgates g hg
    obtain ⟨hmem, hkind⟩ := GatedFormula.mem_logicGates.mp hg
    rcases hkind with hk | hk
    · have hb := hgates _ (List.mem_filterMap.mpr ⟨g, hmem, by rw [hk]⟩)
      rw [holds_gate σ index .AND g (by simp [hk]), beq_iff_eq] at hb
      rwa [houtput g hmem (by simp [hk])] at hb
    · have hb := hgates _ (List.mem_filterMap.mpr ⟨g, hmem, by rw [hk]⟩)
      rw [holds_gate σ index .OR g (by simp [hk]), beq_iff_eq] at hb
      rwa [houtput g hmem (by simp [hk])] at hb
  · intro hgates b hb
    obtain ⟨g, hg, hgb⟩ := List.mem_filterMap.mp hb
    cases hk : g.kind with
    | kTarget => simp [hk] at hgb
    | kAnd =>
      simp only [hk, Option.some.injEq] at hgb
      rw [← hgb, holds_gate σ index .AND g (by simp [hk]), houtput g hg (by simp [hk]),
        hgates g (GatedFormula.mem_logicGates.mpr ⟨hg, Or.inl hk⟩), beq_self_eq_true]
    | kOr =>
      simp only [hk, Option.some.injEq] at hgb
      rw [← hgb, holds_gate σ index .OR g (by simp [hk]), houtput g hg (by simp [hk]),
        hgates g (GatedFormula.mem_logicGates.mpr ⟨hg, Or.inr hk⟩), beq_self_eq_true]
    | kIdentity =>
      simp only [hk, Option.some.injEq] at hgb
      rw [← hgb, holds_gate σ index .IDENTITY g (by simp [hk]), hid g hg hk,
        beq_self_eq_true]

omit hw in
theorem targetsUnder_hold_iff : (∀ l ∈ gf.targetsUnder index, l.holds σ = true) ↔
    gf.targetsHold (fun name => σ (index name)) = true := by
  rw [GatedFormula.targetsHold, List.all_eq_true]
  constructor
  · intro htargets g hg
    by_cases hk : g.kind = .kTarget
    · have hl := htargets _ (List.mem_filterMap.mpr ⟨g, hg, by rw [hk]⟩)
      rw [holds_tokenLit] at hl
      simp [hl]
    · simp [hk]
  · intro htargets l hl
    obtain ⟨g, hg, hgl⟩ := List.mem_filterMap.mp hl
    cases hk : g.kind with
    | kTarget =>
      simp only [hk, Option.some.injEq] at hgl
      have ht := htargets g hg
      rw [← hgl, holds_tokenLit]
      simpa [hk] using ht
    | kAnd => simp [hk] at hgl
    | kOr => simp [hk] at hgl
    | kIdentity => simp [hk] at hgl

/-- The problem of a well-formed formula asks for values that agree with every gate and make
the targets true. -/
theorem Prepared.Translates.sat_iff {p : Prepared} (h : p.Translates index gf) :
    p.problem.sat σ = true ↔
      (∀ g ∈ gf.logicGates, σ (index g.output) = g.value fun name => σ (index name)) ∧
        gf.targetsHold (fun name => σ (index name)) = true := by
  rw [ProblemManagerCircuit.sat, h.gates, h.trueLiterals, Bool.and_eq_true, List.all_eq_true,
    List.all_eq_true, gatesUnder_hold_iff hw, targetsUnder_hold_iff]

end

end Kompyle
