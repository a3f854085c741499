import Kompyle.BcEvaluation
import Kompyle.CnfFile
import Kompyle.CnfGates
import Kompyle.ListLoops
import Mathlib.Algebra.Order.Field.Rat
import Mathlib.Tactic.NormNum

namespace Kompyle

open GatedFormula ListLoops

namespace Util

/-- A column of the row; a negative index counts from the end. -/
def column (row : List Bool) (var : Int) : Except PyError Bool :=
  let i := if var < 0 then var + row.length else var
  if i < 0 then .error .indexError
  else
    match row[i.toNat]? with
    | some v => .ok v
    | none => .error .indexError

def evalClause (row : List Bool) (clause : List Int) : Except PyError Bool :=
  clause.foldlM (fun sat lit => do
    let v ← column row (lit.natAbs - 1)
    return sat || (if 0 < lit then v else !v)) false

/-- One row of the batch. -/
def evalFormula (clauses : List (List Int)) (row : List Bool) : Except PyError Bool :=
  clauses.foldlM (fun result clause => do
    let sat ← evalClause row clause
    return result && sat) true

def evalFormulaBatch (clauses : List (List Int)) (inputs : List (List Bool)) :
    Except PyError (List Bool) := inputs.mapM (evalFormula clauses)

def evalBcCircuitBatch (bc : BcCircuit) (inputs : List (List Bool)) :
    Except PyError (List Bool) := inputs.mapM (evalBcCircuit bc)

/-- `itertools.product`: the last column changes fastest. -/
def allAssignments : Nat → List (List Bool)
  | 0 => [[]]
  | n + 1 => [false, true].flatMap fun b => (allAssignments n).map (b :: ·)

/-- A formula and its circuit; `module` gives the value of the circuit at a row. -/
structure FormulaCircuitPair where
  nVars : Nat
  module : List Bool → ℚ
  bc : Option BcCircuit
  clauses : Option (List (List Int))

def compareRows (fSat cSat : List Bool) : Except PyError Unit :=
  if fSat = cSat then .ok () else .error .assertionError

def assertExhaustiveEquivalence (pair : FormulaCircuitPair) : Except PyError Unit :=
  match pair.bc with
  | some bc => do
    let inputs := allAssignments bc.inputVars.length
    let fSat ← evalBcCircuitBatch bc inputs
    let full ← inputs.mapM (fullInputs bc pair.nVars)
    compareRows fSat (full.map fun row => decide (1 / 2 < pair.module row))
  | none =>
    match pair.clauses with
    | none => .error .assertionError
    | some clauses => do
      let inputs := allAssignments pair.nVars
      let fSat ← evalFormulaBatch clauses inputs
      compareRows fSat (inputs.map fun row => decide (1 / 2 < pair.module row))

theorem mem_allAssignments {n : Nat} {row : List Bool} :
    row ∈ allAssignments n ↔ row.length = n := by
  induction n generalizing row with
  | zero => simp [allAssignments]
  | succ n ih =>
    cases row with
    | nil => simp [allAssignments]
    | cons b row => cases b <;> simp [allAssignments, ih]

theorem compareRows_map (rows : List (List Bool)) (f g : List Bool → Bool) :
    (compareRows (rows.map f) (rows.map g) = .ok () ↔ ∀ row ∈ rows, f row = g row) ∧
      (compareRows (rows.map f) (rows.map g) ≠ .ok () →
        compareRows (rows.map f) (rows.map g) = .error .assertionError) := by
  unfold compareRows
  by_cases h : rows.map f = rows.map g
  · exact ⟨iff_of_true (if_pos h) (List.map_inj_left.mp h), fun hne => absurd (if_pos h) hne⟩
  · refine ⟨iff_of_false ?_ fun hall => h (List.map_inj_left.mpr hall), fun _ => if_neg h⟩
    rw [if_neg h]
    exact fun he => by cases he

/-- The values of the variables in the columns of the row. -/
def rowValue (row : List Bool) (v : Nat) : Bool := row[v - 1]?.getD false

section

variable {row : List Bool} {nVars : Nat} {clauses : List (List Int)}

theorem column_eq {v : Nat} (h1 : 1 ≤ v) (hle : v ≤ row.length) :
    column row ((v : Int) - 1) = .ok (rowValue row v) := by
  have hi : (v : Int) - 1 = (v - 1 : Nat) := by omega
  have hpos : ¬ ((v - 1 : Nat) : Int) < 0 := by omega
  have hget : row[v - 1]? = some row[v - 1] := List.getElem?_eq_getElem (by omega)
  rw [hi, column, rowValue]
  simp only [if_neg hpos, Int.toNat_natCast, hget, Option.getD_some]

theorem evalClause_inRange {clause : List Int}
    (h : ∀ l ∈ clause, 1 ≤ l.natAbs ∧ l.natAbs ≤ row.length) :
    evalClause row clause = .ok (clause.any (literalHolds (rowValue row))) := by
  have hstep : ∀ l ∈ clause, ∀ sat : Bool, (do
      let v ← column row (l.natAbs - 1)
      return sat || (if 0 < l then v else !v)) =
        Except.ok (ε := PyError) (sat || literalHolds (rowValue row) l) := by
    intro l hl sat
    obtain ⟨h1, hle⟩ := h l hl
    rw [column_eq h1 hle]
    refine congrArg (fun b => Except.ok (sat || b)) ?_
    unfold literalHolds
    by_cases hpos : 0 < l
    · simp [hpos, hpos.le]
    · have hneg : ¬ 0 ≤ l := by omega
      simp [hpos, hneg]
  rw [evalClause, foldlM_of_forall_ok hstep, foldl_or, Bool.false_or]

theorem evalFormula_inRange (h : InRange row.length clauses) :
    evalFormula clauses row = .ok (cnfHolds (rowValue row) clauses) := by
  have hstep : ∀ clause ∈ clauses, ∀ result : Bool, (do
      let sat ← evalClause row clause
      return result && sat) =
        Except.ok (ε := PyError) (result && clause.any (literalHolds (rowValue row))) := by
    intro clause hc result
    rw [evalClause_inRange (h clause hc)]
    rfl
  rw [evalFormula, foldlM_of_forall_ok hstep, foldl_and, Bool.true_and]
  rfl

theorem rowValue_map (τ : Nat → Bool) {v : Nat} (h1 : 1 ≤ v) (hle : v ≤ nVars) :
    rowValue ((List.range' 1 nVars).map τ) v = τ v := by
  have hlt : v - 1 < nVars := by omega
  have hv : 1 + (v - 1) = v := by omega
  simp [rowValue, hlt, hv]

theorem map_rowValue (hlen : row.length = nVars) :
    (List.range' 1 nVars).map (rowValue row) = row := by
  refine List.ext_getElem (by simp [hlen]) fun i _ hi => ?_
  simp [rowValue, hi]

theorem assertCnf_eq (hrange : InRange nVars clauses) (module : List Bool → ℚ) :
    assertExhaustiveEquivalence ⟨nVars, module, none, some clauses⟩ = compareRows
      ((allAssignments nVars).map fun row => cnfHolds (rowValue row) clauses)
      ((allAssignments nVars).map fun row => decide (1 / 2 < module row)) := by
  have heval : ∀ row ∈ allAssignments nVars,
      evalFormula clauses row = .ok (cnfHolds (rowValue row) clauses) := by
    intro row hrow
    obtain rfl := mem_allAssignments.mp hrow
    exact evalFormula_inRange hrange
  show evalFormulaBatch clauses (allAssignments nVars) >>= _ = _
  rw [evalFormulaBatch, mapM_of_forall_ok heval]
  rfl

/-- The check of a CNF decides whether the circuit is above one half exactly at the models of the
CNF; there is no other way for it to fail. -/
theorem exhaustiveCheck_iff (hrange : InRange nVars clauses) (module : List Bool → ℚ) :
    let check := assertExhaustiveEquivalence ⟨nVars, module, none, some clauses⟩
    (check = .ok () ↔ ∀ τ : Nat → Bool,
      decide (1 / 2 < module ((List.range' 1 nVars).map τ)) = cnfHolds τ clauses) ∧
    (check ≠ .ok () → check = .error .assertionError) := by
  intro check
  have hcheck := assertCnf_eq hrange module
  obtain ⟨hiff, hfail⟩ := compareRows_map (allAssignments nVars)
    (fun row => cnfHolds (rowValue row) clauses) fun row => decide (1 / 2 < module row)
  rw [← hcheck] at hiff hfail
  refine ⟨hiff.trans ⟨fun h τ => ?_, fun h row hrow => ?_⟩, hfail⟩
  · have hrow : (List.range' 1 nVars).map τ ∈ allAssignments nVars :=
      mem_allAssignments.mpr (by simp)
    rw [← h _ hrow]
    refine dependsOn_cnfHolds hrange fun v hv => ?_
    obtain ⟨h1, hle⟩ := Finset.mem_Icc.mp (Finset.mem_coe.mp hv)
    exact rowValue_map τ h1 hle
  · rw [← h (rowValue row), map_rowValue (mem_allAssignments.mp hrow)]

end

section

variable {gf : GatedFormula} (hw : gf.WellFormed)

include hw

/-- The assignment that the oracle reads off a row. -/
def readRow (gf : GatedFormula) (row : List Bool) : Val :=
  ((readColumns (fun _ => none) (ofFormula gf).inputVars row).toOption).getD fun _ => none

theorem evalBc_row {row : List Bool} (hrow : row ∈ allAssignments (ofFormula gf).inputVars.length) :
    fullInputs (ofFormula gf) (ofFormula gf).allVars.length row =
        .ok (mirror (ofFormula gf).allVars (readRow gf row)) ∧
      evalBcCircuit (ofFormula gf) row = if evaluable gf then
        .ok (gf.targetsHold (gf.evaluate fun name => (readRow gf row name).getD false))
        else .error .keyError := by
  obtain ⟨val, hread, hfull, heval⟩ :=
    evalBcCircuit_ofFormula hw (mem_allAssignments.mp hrow)
  have hval : readRow gf row = val := by
    rw [readRow, hread]
    rfl
  rw [hval]
  exact ⟨hfull, heval⟩

theorem assertBc_eq (horder : evaluable gf = true) (module : List Bool → ℚ) :
    assertExhaustiveEquivalence ⟨(ofFormula gf).allVars.length, module, some (ofFormula gf), none⟩ =
      compareRows ((allAssignments (ofFormula gf).inputVars.length).map fun row =>
          gf.targetsHold (gf.evaluate fun name => (readRow gf row name).getD false))
        ((allAssignments (ofFormula gf).inputVars.length).map fun row =>
          decide (1 / 2 < module (mirror (ofFormula gf).allVars (readRow gf row)))) := by
  have heval := mapM_of_forall_ok fun row hrow =>
    (evalBc_row hw hrow).2.trans (if_pos horder)
  have hfull := mapM_of_forall_ok fun row hrow => (evalBc_row hw hrow).1
  unfold assertExhaustiveEquivalence
  dsimp only
  rw [evalBcCircuitBatch, heval, hfull]
  show compareRows _ (List.map _ (List.map _ _)) = _
  rw [List.map_map]
  rfl

theorem assertBc_unordered (horder : evaluable gf = false) (module : List Bool → ℚ) :
    assertExhaustiveEquivalence ⟨(ofFormula gf).allVars.length, module, some (ofFormula gf), none⟩ =
      .error .keyError := by
  obtain ⟨row, rows, hrows⟩ : ∃ row rows, allAssignments (ofFormula gf).inputVars.length =
      row :: rows := List.exists_cons_of_ne_nil (List.ne_nil_of_mem
        (mem_allAssignments.mpr (List.length_replicate (a := false))))
  have hrow : row ∈ allAssignments (ofFormula gf).inputVars.length := by simp [hrows]
  have heval := (evalBc_row hw hrow).2
  show evalBcCircuitBatch _ _ >>= _ = _
  rw [evalBcCircuitBatch, hrows, List.mapM_cons, heval, horder]
  rfl

end

/-- The sum-product value over the reals, where `leaf` weighs each leaf one or zero. -/
def moduleOf (leaf : (Nat → Bool) → Nat → Bool) (n : Node) (row : List Bool) : ℚ :=
  n.value fun ix => Node.indicator ℚ (leaf (rowValue row) ix)

/-- What is documented of klay's `to_torch_module` with the real semiring. -/
def SumProductModule (leaf : (Nat → Bool) → Nat → Bool) (toTorchModule : Node → List Bool → ℚ) :
    Prop := ∀ n row, toTorchModule n row = moduleOf leaf n row

/-- What is known of the weights: they are those of an assignment of the literals. -/
structure Klay.Weighs (K : Klay) (leaf : (Nat → Bool) → Nat → Bool) : Prop where
  complementary : ∀ τ, Complementary (leaf τ)
  evaluates : ∀ τ, K.Evaluates (Node.boolean (leaf τ)) (literalHolds τ)

theorem reference_weighs : Klay.Weighs Klay.reference Klay.leafHolds :=
  ⟨leafHolds_complementary, Klay.reference_denotes⟩

def compileGatedPair (K : Klay) (solver : Prepared → CallTree)
    (toTorchModule : Node → List Bool → ℚ) (nVars : Nat) (clauses : List (List Int)) :
    Except PyError FormulaCircuitPair :=
  match compileGated K solver nVars clauses with
  | none => .error .assertionError
  | some (_, n) => .ok ⟨nVars, toTorchModule n, none, some clauses⟩

theorem threshold_indicator (b : Bool) : decide (1 / 2 < Node.indicator ℚ b) = b := by
  cases b <;> norm_num [Node.indicator]

theorem readBack_inRange {nVars : Nat} {clauses : List (List Int)}
    (hrange : InRange nVars clauses) : readBack clauses = clauses.filter fun clause => clause ≠ [] := by
  have hkept : clauses.map (fun clause => clause.filter fun l => l ≠ 0) = clauses := by
    refine (List.map_congr_left fun clause hc => ?_).trans (List.map_id clauses)
    refine List.filter_eq_self.mpr fun l hl => ?_
    have hpos := (hrange clause hc l hl).1
    have hne : l ≠ 0 := by omega
    simpa using hne
  rw [readBack, hkept]

section

variable {K : Klay} (hS : K.Simplifies) (hden : K.Denotes) (hneg : K.Complements)
  {leaf : (Nat → Bool) → Nat → Bool} (hleaf : Klay.Weighs K leaf)
  {toTorchModule : Node → List Bool → ℚ} (htorch : SumProductModule leaf toTorchModule)
  {solver : Prepared → CallTree}

include hS hden hneg hleaf htorch

/-- A CNF that is written to a file, read from it and compiled passes the check, and what it is
compared with is the CNF without its empty clauses; only without clauses and variables nothing
is compiled. -/
theorem cnfCheck_passes {limit nVars : Nat} {clauses : List (List Int)} {content : String}
    (hwrite : writeCnf limit nVars clauses = .ok content) (hrange : InRange nVars clauses)
    (hsolver : ∀ gf, cnfToGatedFormula nVars (readBack clauses) = some gf → gf.WellFormed →
      (prepareGatesFormula Circuit.fresh gf).IsRun (solver (prepareGatesFormula Circuit.fresh gf))) :
    ∃ parsed, parseCnf limit content = .ok ((nVars : Int), parsed) ∧
      (∀ τ, cnfHolds τ parsed = true ↔
        ∀ clause ∈ clauses, clause ≠ [] → clause.any (literalHolds τ) = true) ∧
      (compileGatedPair K solver toTorchModule nVars parsed >>= assertExhaustiveEquivalence) =
        if parsed = [] ∧ nVars = 0 then .error .assertionError else .ok () := by
  have hread := readBack_inRange hrange
  have hparsed : InRange nVars (readBack clauses) := by
    rw [hread]
    exact fun clause hc => hrange clause (List.mem_of_mem_filter hc)
  refine ⟨readBack clauses, parseCnf_written hwrite, fun τ => ?_, ?_⟩
  · rw [cnfHolds, hread, List.all_filter, List.all_eq_true]
    refine forall₂_congr fun clause _ => ?_
    by_cases hc : clause = []
    · simp [hc]
    · simp [hc]
  · cases hcompile : compileGated K solver nVars (readBack clauses) with
    | none =>
      rw [if_pos ((compileGated_none_iff _ _ _ _).mp hcompile), compileGatedPair, hcompile]
      rfl
    | some cn =>
      obtain ⟨c, n⟩ := cn
      obtain ⟨-, hdet, hdenote⟩ := compileGated_some hS hden hneg hparsed hsolver hcompile
      have hmodule : ∀ row, decide (1 / 2 < toTorchModule n row) =
          cnfHolds (rowValue row) (readBack clauses) := by
        intro row
        rw [htorch, moduleOf, hdet.value_indicator (hleaf.complementary _), threshold_indicator,
          hdenote _ _ (hleaf.evaluates _)]
      have hsome : ¬ (readBack clauses = [] ∧ nVars = 0) := by
        rw [← compileGated_none_iff K solver, hcompile]
        simp
      rw [if_neg hsome, compileGatedPair, hcompile]
      show assertExhaustiveEquivalence ⟨nVars, toTorchModule n, none, some (readBack clauses)⟩ = _
      rw [assertCnf_eq hparsed]
      exact (compareRows_map _ _ _).1.mpr fun row _ => (hmodule row).symm

/-- A circuit file whose gates are in order passes the check, and the circuit has its variables
numbered as the check has them; if a gate reads a later one, the check has no value for it. -/
theorem bcCheck_passes {bcPath content : String} (hplain : PlainText content.toList)
    {gf : GatedFormula} (hgf : List.Forall₂ Declares (significantLines content) gf.gates_)
    (hw : gf.WellFormed) (ht : (prepareGatesFormula Circuit.fresh gf).IsRun
      (solver (prepareGatesFormula Circuit.fresh gf))) :
    ∃ c n bc, compileFromGatesFileUsingD4v2 K solver Circuit.fresh bcPath (some content) =
        .ok (c, n) ∧ parseBcFile content = .ok bc ∧ bc.allVars = c.registered ∧
      assertExhaustiveEquivalence ⟨bc.allVars.length, toTorchModule n, some bc, none⟩ =
        if evaluable gf then .ok () else .error .keyError := by
  let p := prepareGatesFormula Circuit.fresh gf
  let n := (solver p).run (klayCircuitOperation K p.isGateVar)
  have hload : (GateCall.file solver bcPath (some content)).load = .ok gf :=
    Kompyle.parseBcFile_declares bcPath hgf
  have hcompiled := compiled_call hS hden hneg hload hw ht (List.prefix_refl _)
  rw [GateCall.compile_ok K Circuit.fresh hload] at hcompiled
  obtain ⟨gf', hgf', hdet, hdenote⟩ := hcompiled
  obtain rfl := Except.ok.inj (hload.symm.trans hgf')
  have hn : n.Deterministic := hdet
  have hvalue : ∀ σ τ, K.Evaluates (Node.boolean σ) (literalHolds τ) →
      n.denote σ = gf.targetsHold (gf.evaluate fun name => τ (p.circuit.index name)) := hdenote
  have hvars : (ofFormula gf).allVars = p.circuit.registered := allVars_ofFormula hw
  have hmodule : ∀ val : Val,
      decide (1 / 2 < toTorchModule n (mirror (ofFormula gf).allVars val)) =
        gf.targetsHold (gf.evaluate fun name => (val name).getD false) := by
    intro val
    rw [htorch, moduleOf, hn.value_indicator (hleaf.complementary _), threshold_indicator,
      hvalue _ _ (hleaf.evaluates _)]
    refine targetsHold_congr fun name hname => evaluate_congr hw (fun a ha => ?_) hname
    have htracked := inputs_tracked hw ha
    have hidx : p.circuit.index a - 1 = (ofFormula gf).allVars.idxOf a := by
      rw [Circuit.index_of_mem (hvars ▸ htracked), hvars, Nat.add_sub_cancel]
    have hlt := List.idxOf_lt_length_of_mem htracked
    simp [rowValue, hidx, mirror, hlt]
  refine ⟨p.circuit, n, ofFormula gf, ?_, parseBcFile_declares hplain hgf, hvars, ?_⟩
  · rw [compileFromGatesFileUsingD4v2, Kompyle.parseBcFile_declares bcPath hgf]
    rfl
  · cases horder : evaluable gf with
    | false =>
      rw [if_neg (by simp), assertBc_unordered hw horder]
    | true =>
      rw [if_pos rfl, assertBc_eq hw horder]
      exact (compareRows_map _ _ _).1.mpr fun row _ => (hmodule _).symm

end

/-- A circuit that is always true is not one for the clauses. -/
theorem constant_rejected :
    assertExhaustiveEquivalence ⟨2, fun _ => 1, none, some unitClauses⟩ =
      .error .assertionError := by
  obtain ⟨hiff, hfail⟩ := exhaustiveCheck_iff unitClauses_inRange fun _ => 1
  refine hfail fun hok => ?_
  have hagree := hiff.mp hok fun _ => false
  have hfalse : cnfHolds (fun _ => false) unitClauses = false := by decide
  rw [hfalse] at hagree
  norm_num at hagree

/-- The empty clause in the file is lost. -/
theorem unitFile_checked :
    ∃ parsed, parseCnf 0 "p cnf 2 3\n1 0\n 0\n-2 0\n" = .ok (2, parsed) ∧
      (∀ τ, cnfHolds τ parsed = true ↔ ∀ clause ∈ [[1], [], [-2]], clause ≠ [] →
        clause.any (literalHolds τ) = true) ∧
      (compileGatedPair Klay.reference unitSolver (moduleOf Klay.leafHolds) 2 parsed >>=
        assertExhaustiveEquivalence) = .ok () := by
  have hwrite : writeCnf 0 (2 : Nat) [[1], [], [-2]] = .ok "p cnf 2 3\n1 0\n 0\n-2 0\n" := by
    decide
  have hrange : InRange 2 [[1], [], [-2]] := by
    unfold InRange
    decide
  have hread : readBack [[1], [], [-2]] = unitClauses := by decide
  have hsolver : ∀ gf, cnfToGatedFormula 2 (readBack [[1], [], [-2]]) = some gf →
      gf.WellFormed → (prepareGatesFormula Circuit.fresh gf).IsRun
        (unitSolver (prepareGatesFormula Circuit.fresh gf)) := by
    rw [hread]
    exact fun gf h _ => unitSolver_run h
  obtain ⟨parsed, hparse, hholds, hcheck⟩ := cnfCheck_passes Klay.reference_simplifies
    reference_complementary reference_complements reference_weighs (fun _ _ => rfl) hwrite hrange hsolver
  rw [if_neg (by omega)] at hcheck
  exact ⟨parsed, hparse, hholds, hcheck⟩

def unitContent : String := "I 1\nI 2\nG 3 := O 1\nG 4 := O -2\n\nG 5 := A 3 4\nc\nT 5\n"

theorem unitContent_declares :
    List.Forall₂ Declares (significantLines unitContent) unitGates.gates_ := by
  have hlines : significantLines unitContent = ["I 1".toList, "I 2".toList, "G 3 := O 1".toList,
      "G 4 := O -2".toList, "G 5 := A 3 4".toList, "T 5".toList] := by decide
  have hgates : unitGates.gates_ = [⟨.kIdentity, "1", ["1"]⟩, ⟨.kIdentity, "2", ["2"]⟩,
      ⟨.kOr, "3", ["1"]⟩, ⟨.kOr, "4", ["-2"]⟩, ⟨.kAnd, "5", ["3", "4"]⟩, ⟨.kTarget, "5", []⟩] := by
    decide
  rw [hlines, hgates]
  refine .cons (.input ?_ ?_) (.cons (.input ?_ ?_) (.cons (.or ?_ ?_) (.cons (.or ?_ ?_)
    (.cons (.and ?_ ?_) (.cons (.target ?_ ?_) .nil)))))
  all_goals decide

theorem unitContent_checked :
    ∃ c n bc, compileFromGatesFileUsingD4v2 Klay.reference unitSolver Circuit.fresh "f.bc"
        (some unitContent) = .ok (c, n) ∧ parseBcFile unitContent = .ok bc ∧
      bc.allVars = c.registered ∧ assertExhaustiveEquivalence
        ⟨bc.allVars.length, moduleOf Klay.leafHolds n, some bc, none⟩ = .ok () := by
  have hplain : PlainText unitContent.toList := by
    rw [plainText_iff]
    decide
  have hw : unitGates.WellFormed :=
    numbered_wellFormed (cnfRows_ordered unitClauses_inRange)
      (Nat.le_add_left_of_le (length_cnfRows_pos 2 unitClauses))
  have hrun : (prepareGatesFormula Circuit.fresh unitGates).IsRun
      (unitSolver (prepareGatesFormula Circuit.fresh unitGates)) := unitRun_isRun
  have horder : evaluable unitGates = true := by decide
  obtain ⟨c, n, bc, hcompile, hparse, hvars, hassert⟩ :=
    bcCheck_passes Klay.reference_simplifies reference_complementary reference_complements
      reference_weighs (fun _ _ => rfl) hplain unitContent_declares hw hrun
  rw [horder, if_pos rfl] at hassert
  exact ⟨c, n, bc, hcompile, hparse, hvars, hassert⟩

end Util

end Kompyle
