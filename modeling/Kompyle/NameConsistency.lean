import Kompyle.ListLoops
import Kompyle.Materialise

namespace Kompyle

open ListLoops

def ProblemManagerCircuit.lits (pm : ProblemManagerCircuit) : List Lit :=
  pm.gates.flatMap (fun g => g.output :: g.input) ++ pm.trueLiterals

/-- The problem is the formula under the numbering: nothing added, dropped or moved. -/
structure Prepared.Translates (p : Prepared) (index : String → Nat) (gf : GatedFormula) :
    Prop where
  gates : p.problem.gates = gf.gatesUnder index
  trueLiterals : p.problem.trueLiterals = gf.targetsUnder index

/-- A token is its name, or `'-'` in front of its name and then negated. -/
inductive TokenOf : String → String → Bool → Prop
  | negated (name : String) : TokenOf ("-" ++ name) name true
  | plain {name : String} : name.toList.head? ≠ some '-' → TokenOf name name false

/-- The literal of a token has the index of the token's name, and is negated if the token is. -/
def Says (index : String → Nat) (tok : String) (l : Lit) : Prop :=
  ∃ name, TokenOf tok name l.sign ∧ l.var = index name

structure GateSays (index : String → Nat) (g : GatedFormula.Gate) (b : BcGate) : Prop where
  kind : g.kind = match b.gate_type with
    | .AND => .kAnd
    | .OR => .kOr
    | .IDENTITY => .kIdentity
  output : Says index g.output b.output
  input : List.Forall₂ (Says index) g.inputs b.input

/-- The problem has the gates and the targets of the formula in order, and the literals are those
of the tokens. -/
structure Prepared.Restates (p : Prepared) (index : String → Nat) (gf : GatedFormula) :
    Prop where
  gates : List.Forall₂ (GateSays index) (gf.gates_.filter fun g => g.kind ≠ .kTarget)
    p.problem.gates
  trueLiterals : List.Forall₂ (fun g l => Says index g.output l)
    (gf.gates_.filter fun g => g.kind = .kTarget) p.problem.trueLiterals

/-- Every literal of the problem is one of a registered variable, and in range of the tables
and of the mask. -/
structure Prepared.Covered (p : Prepared) : Prop where
  var : ∀ l ∈ p.problem.lits, l.var ∈ Set.Icc 1 p.circuit.nbVars
  weightLit : ∀ l ∈ p.problem.lits, 2 * l.var + 1 < p.problem.weightLit.length
  weightVar : ∀ l ∈ p.problem.lits, l.var < p.problem.weightVar.length
  order : ∀ l ∈ p.problem.lits, l.var < p.problem.order.length
  isGateVar : ∀ l ∈ p.problem.lits, l.var < p.isGateVar.length

theorem tokenLit_var (index : String → Nat) (tok : String) :
    (tokenLit index tok).var = index (tokenName tok) := by
  unfold tokenLit
  dsimp only
  split <;> rfl

theorem tokenOf_token (tok : String) : TokenOf tok (tokenName tok) (tokenNeg tok) := by
  unfold tokenName tokenNeg
  cases htok : tok.toList with
  | nil => exact .plain (by simp [htok])
  | cons c cs =>
    by_cases hc : c = '-'
    · subst hc
      have hsplit : tok = "-" ++ String.ofList cs := by
        rw [← String.toList_inj, htok, String.toList_append]
        show '-' :: cs = '-' :: (String.ofList cs).toList
        rw [String.toList_ofList]
      have hneg := TokenOf.negated (String.ofList cs)
      rwa [← hsplit] at hneg
    · have hplain : TokenOf tok tok false := .plain (by simp [htok, hc])
      simpa [hc] using hplain

theorem says_tokenLit (index : String → Nat) (tok : String) :
    Says index tok (tokenLit index tok) := by
  refine ⟨tokenName tok, ?_, tokenLit_var index tok⟩
  have hsign : (tokenLit index tok).sign = tokenNeg tok := by
    unfold tokenLit
    cases tokenNeg tok <;> rfl
  rw [hsign]
  exact tokenOf_token tok

theorem gatesUnder_says (index : String → Nat) (gs : List GatedFormula.Gate) :
    List.Forall₂ (GateSays index) (gs.filter fun g => g.kind ≠ .kTarget)
      (GatedFormula.gatesUnder index ⟨gs⟩) := by
  induction gs with
  | nil => exact .nil
  | cons g gs ih =>
    have hinput := forall₂_map_self (says_tokenLit index) g.inputs
    rw [GatedFormula.gatesUnder_cons]
    obtain ⟨kind, output, inputs⟩ := g
    cases kind with
    | kTarget => exact ih
    | kAnd => exact .cons ⟨rfl, says_tokenLit index output, hinput⟩ ih
    | kOr => exact .cons ⟨rfl, says_tokenLit index output, hinput⟩ ih
    | kIdentity => exact .cons ⟨rfl, says_tokenLit index output, hinput⟩ ih

theorem targetsUnder_says (index : String → Nat) (gs : List GatedFormula.Gate) :
    List.Forall₂ (fun g l => Says index g.output l) (gs.filter fun g => g.kind = .kTarget)
      (GatedFormula.targetsUnder index ⟨gs⟩) := by
  induction gs with
  | nil => exact .nil
  | cons g gs ih =>
    rw [GatedFormula.targetsUnder_cons]
    obtain ⟨kind, output, inputs⟩ := g
    cases kind with
    | kTarget => exact .cons (says_tokenLit index output) ih
    | kAnd => exact ih
    | kOr => exact ih
    | kIdentity => exact ih

theorem Prepared.Translates.restates {p : Prepared} {index : String → Nat} {gf : GatedFormula}
    (h : p.Translates index gf) : p.Restates index gf where
  gates := by
    rw [h.gates]
    exact gatesUnder_says index gf.gates_
  trueLiterals := by
    rw [h.trueLiterals]
    exact targetsUnder_says index gf.gates_

theorem Prepared.Translates.exists_token {p : Prepared} {index : String → Nat}
    {gf : GatedFormula} (h : p.Translates index gf) {l : Lit} (hl : l ∈ p.problem.lits) :
    ∃ name ∈ gf.names, l.var = index name := by
  suffices htok : ∃ g ∈ gf.gates_, ∃ tok ∈ g.tokens, l = tokenLit index tok by
    obtain ⟨g, hg, tok, htok, rfl⟩ := htok
    have hmem : tok ∈ gf.tokens := List.mem_flatMap.mpr ⟨g, hg, htok⟩
    exact ⟨tokenName tok, List.mem_map_of_mem hmem, tokenLit_var index tok⟩
  have hin : ∀ (output : String) (inputs : List String),
      l ∈ tokenLit index output :: inputs.map (tokenLit index) →
        ∃ tok ∈ output :: inputs, l = tokenLit index tok := by
    intro output inputs hm
    rw [← List.map_cons] at hm
    obtain ⟨tok, htok, rfl⟩ := List.mem_map.mp hm
    exact ⟨tok, htok, rfl⟩
  rw [ProblemManagerCircuit.lits, h.gates, h.trueLiterals, List.mem_append] at hl
  rcases hl with hl | hl
  · obtain ⟨b, hb, hl⟩ := List.mem_flatMap.mp hl
    obtain ⟨g, hg, hgb⟩ := List.mem_filterMap.mp hb
    obtain ⟨kind, output, inputs⟩ := g
    refine ⟨_, hg, ?_⟩
    cases kind <;> simp only [Option.some.injEq, reduceCtorEq] at hgb <;> subst hgb <;>
      exact hin output inputs hl
  · obtain ⟨g, hg, hgl⟩ := List.mem_filterMap.mp hl
    obtain ⟨kind, output, inputs⟩ := g
    refine ⟨_, hg, output, ?_⟩
    cases kind <;> simp only [Option.some.injEq, reduceCtorEq] at hgl
    exact ⟨List.mem_singleton_self output, hgl.symm⟩

theorem prepareGatesFormula_spec (c : Circuit) (gf : GatedFormula) :
    (prepareGatesFormula c gf).circuit = c.after gf.names ∧
      (∀ d : Circuit, (c.after gf.names).registered <+: d.registered →
        (prepareGatesFormula c gf).Translates d.index gf) ∧
      (prepareGatesFormula c gf).Covered := by
  obtain ⟨hc, hpm⟩ := materialiseFormula_spec gf c .empty
  have htr : ∀ d : Circuit, (c.after gf.names).registered <+: d.registered →
      (prepareGatesFormula c gf).Translates d.index gf := by
    intro d hd
    have hp := hpm d (by rw [hc]; exact hd)
    exact ⟨congrArg ProblemManagerCircuit.gates hp,
      congrArg ProblemManagerCircuit.trueLiterals hp⟩
  have hvar : ∀ l ∈ (prepareGatesFormula c gf).problem.lits,
      l.var ∈ Set.Icc 1 (prepareGatesFormula c gf).circuit.nbVars := by
    intro l hl
    obtain ⟨name, hname, hl⟩ := (htr _ (List.prefix_refl _)).exists_token hl
    rw [hl]
    show (c.after gf.names).index name ∈ Set.Icc 1 ((materialiseFormula gf c .empty).1).nbVars
    rw [hc]
    exact (Circuit.index_bijOn _).mapsTo (Circuit.mem_after.mpr (Or.inr hname))
  refine ⟨hc, htr, hvar, ?_, ?_, ?_, ?_⟩ <;> intro l hl <;>
    have hlt : l.var ≤ (materialiseFormula gf c .empty).1.nbVars := (hvar l hl).2
  · simp only [prepareGatesFormula, initPmWeights, List.length_replicate, Nat.shiftLeft_eq]
    omega
  · simp only [prepareGatesFormula, initPmWeights, List.length_replicate]
    omega
  · simp only [prepareGatesFormula, initPmWeights, List.length_range]
    omega
  · simp only [prepareGatesFormula, length_buildExclusionMask, initPmWeights]
    omega

theorem circuitAfter_eq (gfs : List GatedFormula) :
    circuitAfter gfs = Circuit.fresh.after (gfs.flatMap GatedFormula.names) := by
  induction gfs using List.reverseRecOn with
  | nil => rfl
  | append_singleton gfs gf ih =>
    have hstep : circuitAfter (gfs ++ [gf]) =
        (prepareGatesFormula (circuitAfter gfs) gf).circuit := by simp [circuitAfter]
    rw [hstep, (prepareGatesFormula_spec _ gf).1, ih, ← Circuit.after_append]
    simp

theorem prefix_circuitAfter {gfs hfs : List GatedFormula} (h : gfs <+: hfs) :
    (circuitAfter gfs).registered <+: (circuitAfter hfs).registered := by
  obtain ⟨rest, rfl⟩ := h
  rw [circuitAfter_eq, circuitAfter_eq, List.flatMap_append, Circuit.after_append]
  exact Circuit.prefix_after _ _

theorem prepareGatesFormula_again {gfs : List GatedFormula} {gf : GatedFormula}
    (hgf : gf ∈ gfs) : (prepareGatesFormula (circuitAfter gfs) gf).circuit = circuitAfter gfs ∧
      (prepareGatesFormula (circuitAfter gfs) gf).Translates (circuitAfter gfs).index gf := by
  obtain ⟨hc, htr, -⟩ := prepareGatesFormula_spec (circuitAfter gfs) gf
  have hsame : (circuitAfter gfs).after gf.names = circuitAfter gfs := by
    refine Circuit.after_of_mem fun name hname => ?_
    rw [circuitAfter_eq]
    exact Circuit.mem_after.mpr (Or.inr (List.mem_flatMap.mpr ⟨gf, hgf, hname⟩))
  rw [hsame] at hc htr
  exact ⟨hc, htr _ (List.prefix_refl _)⟩

/-- Formulas compiled one after another into one circuit agree on what every name means. -/
theorem names_consistent (gfs : List GatedFormula) :
    (∀ gf ∈ gfs, List.Forall₂ (fun tok name => ∃ neg, TokenOf tok name neg) gf.tokens gf.names) ∧
    (∀ seen, seen <+: gfs.flatMap GatedFormula.names →
      (Circuit.fresh.after seen).NumberedBy seen ∧
        ∀ name ∈ seen, (circuitAfter gfs).index name = (Circuit.fresh.after seen).index name) ∧
    ∀ before gf later, gfs = before ++ gf :: later →
      let first := prepareGatesFormula (circuitAfter before) gf
      let again := prepareGatesFormula (circuitAfter gfs) gf
      circuitAfter before = Circuit.fresh.after (before.flatMap GatedFormula.names) ∧
      first.circuit = circuitAfter (before ++ [gf]) ∧
      first.Restates (circuitAfter gfs).index gf ∧ first.Covered ∧
      again.circuit = circuitAfter gfs ∧ again.problem.gates = first.problem.gates ∧
      again.problem.trueLiterals = first.problem.trueLiterals := by
  refine ⟨fun gf _ => ?_, fun seen hseen => ?_, ?_⟩
  · exact forall₂_map_self (fun tok => ⟨tokenNeg tok, tokenOf_token tok⟩) gf.tokens
  · refine ⟨Circuit.numberedBy_after seen, fun name hname => ?_⟩
    obtain ⟨rest, hrest⟩ := hseen
    rw [circuitAfter_eq, ← hrest, Circuit.after_append]
    exact Circuit.index_mono (Circuit.prefix_after _ _) (Circuit.mem_after.mpr (Or.inr hname))
  · intro before gf later hgfs first again
    have hpre : before ++ [gf] <+: gfs := ⟨later, by simp [hgfs]⟩
    have hmem : gf ∈ gfs := by simp [hgfs]
    obtain ⟨hc, htr, hcov⟩ := prepareGatesFormula_spec (circuitAfter before) gf
    obtain ⟨hc', htr'⟩ := prepareGatesFormula_again hmem
    have hafter : (circuitAfter before).after gf.names = circuitAfter (before ++ [gf]) := by
      rw [circuitAfter_eq before, ← Circuit.after_append, circuitAfter_eq]
      simp
    rw [hafter] at hc htr
    have hfirst := htr _ (prefix_circuitAfter hpre)
    exact ⟨circuitAfter_eq before, hc, hfirst.restates, hcov, hc',
      htr'.gates.trans hfirst.gates.symm, htr'.trueLiterals.trans hfirst.trueLiterals.symm⟩

end Kompyle
