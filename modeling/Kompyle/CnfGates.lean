import Kompyle.CompileGanak
import Kompyle.GateSession
import Kompyle.PythonInt

namespace Kompyle

open GatedFormula

theorem tokenNeg_str (l : Int) : tokenNeg (str l) = decide (l < 0) := by
  rw [tokenNeg_eq]
  by_cases h : l < 0
  · rw [toList_str_of_neg h]
    simp [h]
  · obtain ⟨v, rfl⟩ := Int.eq_ofNat_of_zero_le (Int.not_lt.mp h)
    have hdigit : (Nat.toDigits 10 v).head? ≠ some '-' := by
      intro hd
      have hmem := List.mem_of_mem_head? hd
      exact absurd (Nat.isDigit_of_mem_toDigits (by decide) (by decide) hmem) (by decide)
    rw [toList_str_natCast]
    simp [hdigit]

theorem tokenNeg_str_natCast (v : Nat) : tokenNeg (str v) = false := by
  rw [tokenNeg_str, decide_eq_false_iff_not, Int.not_lt]
  exact Int.natCast_nonneg v

theorem tokenName_str (l : Int) : tokenName (str l) = str l.natAbs := by
  rw [tokenName_eq, tokenNeg_str]
  by_cases h : l < 0
  · rw [if_pos (decide_eq_true h), toList_str_of_neg h, ← toList_str_natCast]
    exact String.ofList_toList
  · rw [if_neg (by simpa using h), Int.natAbs_of_nonneg (Int.not_lt.mp h)]

theorem tokenHolds_str (env : String → Bool) (l : Int) :
    tokenHolds env (str l) = literalHolds (fun v => env (str v)) l := by
  unfold tokenHolds literalHolds
  rw [tokenName_str, tokenNeg_str]
  by_cases h : l < 0
  · simp [h, Int.not_le.mpr h]
  · simp [h, Int.not_lt.mp h]

/-- `gf.add_or(str(next_id), ...)`, with the id appended to the list. -/
def addOrGate (st : GatedFormula × Nat × List String) (inputs : List String) :
    GatedFormula × Nat × List String :=
  let (gf, nextId, ids) := st
  (gf.addOr (str nextId) inputs, nextId + 1, ids ++ [str nextId])

/-- The assertion that there is a variable fails on no variables and no clauses. -/
def cnfToGatedFormula (nVars : Nat) (clauses : List (List Int)) : Option GatedFormula :=
  let gf := (List.range' 1 nVars).foldl (fun gf (v : Nat) => gf.addInput (str v)) .empty
  let nextId := nVars + 1
  if clauses = [] then
    if nVars < 1 then none
    else
      let (gf, nextId, tautologyIds) := (List.range' 1 nVars).foldl
        (fun st (v : Nat) => addOrGate st [str v, str (-v)]) (gf, nextId, [])
      some ((gf.addOr (str nextId) tautologyIds).addTarget (str nextId))
  else
    let (gf, nextId, clauseVars) := clauses.foldl
      (fun st clause => addOrGate st (clause.map str)) (gf, nextId, [])
    match clauseVars with
    | [id] => some (gf.addTarget id)
    | _ => some ((gf.addAnd (str nextId) clauseVars).addTarget (str nextId))

/-- A CNF compiled by way of its gates into the circuit at hand. -/
def compileGfInto (K : Klay) (solver : Prepared → CallTree) (circuit : Circuit) (nVars : Nat)
    (clauses : List (List Int)) : Option (Circuit × Node) :=
  (cnfToGatedFormula nVars clauses).map (compileFromGatesFormulaUsingD4v2 K solver circuit)

/-- The same for a circuit of its own. -/
def compileGated (K : Klay) (solver : Prepared → CallTree) (nVars : Nat)
    (clauses : List (List Int)) : Option (Circuit × Node) :=
  (cnfToGatedFormula nVars clauses).map
    (compileFromGatesFormulaUsingD4v2 K solver Circuit.fresh)

/-- A gate over numbers: its kind and its input literals. -/
abbrev Row := GateKind × List Int

def inputGates (nVars : Nat) : List Gate :=
  (List.range' 1 nVars).map fun (v : Nat) => ⟨.kIdentity, str v, [str v]⟩

/-- The gates for the rows, numbered from `nextId` on. -/
def rowGates : Nat → List Row → List Gate
  | _, [] => []
  | nextId, (kind, row) :: rows =>
    ⟨kind, str nextId, row.map str⟩ :: rowGates (nextId + 1) rows

/-- The formula whose target is its last gate. -/
def numbered (nVars : Nat) (rows : List Row) : GatedFormula :=
  ⟨inputGates nVars ++ rowGates (nVars + 1) rows ++
    [⟨.kTarget, str (nVars + rows.length : Nat), []⟩]⟩

/-- Every row is an AND or an OR of literals over smaller numbers. -/
def Ordered : Nat → List Row → Prop
  | _, [] => True
  | nextId, (kind, row) :: rows => (kind = .kAnd ∨ kind = .kOr) ∧
      (∀ l ∈ row, 1 ≤ l.natAbs ∧ l.natAbs < nextId) ∧ Ordered (nextId + 1) rows

/-- The ids of `k` gates that are numbered from `nextId` on. -/
def gateIds (nextId k : Nat) : List Int := (List.range' nextId k).map fun (v : Nat) => (v : Int)

def cnfRows (nVars : Nat) (clauses : List (List Int)) : List Row :=
  if clauses = [] then
    (List.range' 1 nVars).map (fun (v : Nat) => (.kOr, [(v : Int), -(v : Int)])) ++
      [(.kOr, gateIds (nVars + 1) nVars)]
  else
    clauses.map (fun clause => (.kOr, clause)) ++
      if clauses.length = 1 then [] else [(.kAnd, gateIds (nVars + 1) clauses.length)]

theorem rowGates_append (nextId : Nat) (rows rows' : List Row) :
    rowGates nextId (rows ++ rows') =
      rowGates nextId rows ++ rowGates (nextId + rows.length) rows' := by
  induction rows generalizing nextId with
  | nil => rfl
  | cons row rows ih =>
    rw [List.cons_append, rowGates, ih, rowGates, List.length_cons, List.cons_append,
      Nat.add_assoc, Nat.add_comm 1]

theorem foldl_addInput (vs : List Nat) (gf : GatedFormula) :
    vs.foldl (fun gf (v : Nat) => gf.addInput (str v)) gf =
      ⟨gf.gates_ ++ vs.map fun (v : Nat) => ⟨.kIdentity, str v, [str v]⟩⟩ := by
  induction vs generalizing gf with
  | nil => simp
  | cons v vs ih =>
    rw [List.foldl_cons, ih]
    simp [addInput]

theorem foldl_addOrGate (clauses : List (List Int)) (gf : GatedFormula) (nextId : Nat)
    (ids : List String) :
    clauses.foldl (fun st clause => addOrGate st (clause.map str)) (gf, nextId, ids) =
      (⟨gf.gates_ ++ rowGates nextId (clauses.map fun clause => (.kOr, clause))⟩,
        nextId + clauses.length, ids ++ (gateIds nextId clauses.length).map str) := by
  induction clauses generalizing gf nextId ids with
  | nil => simp [rowGates, gateIds]
  | cons clause clauses ih =>
    rw [List.foldl_cons, addOrGate, ih]
    simp [rowGates, gateIds, addOr, List.range'_succ, Nat.add_assoc, Nat.add_comm 1]

theorem foldl_tautologies (vs : List Nat) (gf : GatedFormula) (nextId : Nat) (ids : List String) :
    vs.foldl (fun st (v : Nat) => addOrGate st [str v, str (-v)]) (gf, nextId, ids) =
      (⟨gf.gates_ ++ rowGates nextId (vs.map fun (v : Nat) => (.kOr, [(v : Int), -(v : Int)]))⟩,
        nextId + vs.length, ids ++ (gateIds nextId vs.length).map str) := by
  have hclauses := foldl_addOrGate (vs.map fun (v : Nat) => [(v : Int), -(v : Int)]) gf nextId ids
  rwa [List.foldl_map, List.map_map, List.length_map] at hclauses

theorem cnfToGatedFormula_eq {nVars : Nat} {clauses : List (List Int)}
    (h : clauses ≠ [] ∨ 1 ≤ nVars) :
    cnfToGatedFormula nVars clauses = some (numbered nVars (cnfRows nVars clauses)) := by
  unfold cnfToGatedFormula cnfRows numbered
  dsimp only
  rw [foldl_addInput]
  by_cases hc : clauses = []
  · have hone : ¬ nVars < 1 := Nat.not_lt.mpr (h.resolve_left fun hn => hn hc)
    rw [if_pos hc, if_pos hc, if_neg hone, foldl_tautologies]
    simp [addOr, addTarget, rowGates_append, rowGates, inputGates, empty, Nat.add_assoc,
      Nat.add_comm 1]
  · rw [if_neg hc, if_neg hc, foldl_addOrGate]
    obtain ⟨clause, rest, rfl⟩ := List.exists_cons_of_ne_nil hc
    cases rest with
    | nil => simp [gateIds, addTarget, rowGates, inputGates, empty]
    | cons clause' rest =>
      simp [gateIds, List.range'_succ, addTarget, addAnd, rowGates_append, rowGates, inputGates,
        empty, Nat.add_assoc, Nat.add_comm 1]
      exact congrArg str (by omega)

section

variable {nVars : Nat} {rows : List Row}

theorem mem_rowGates {nextId : Nat} (h : Ordered nextId rows) {g : Gate}
    (hg : g ∈ rowGates nextId rows) : ∃ (id : Nat) (row : List Int), nextId ≤ id ∧ id < nextId + rows.length ∧
      g.output = str id ∧ g.inputs = row.map str ∧ (g.kind = .kAnd ∨ g.kind = .kOr) ∧
        ∀ l ∈ row, 1 ≤ l.natAbs ∧ l.natAbs < id := by
  induction rows generalizing nextId with
  | nil => cases hg
  | cons r rows ih =>
    obtain ⟨kind, row⟩ := r
    obtain ⟨hkind, hrow, hrest⟩ := h
    rcases List.mem_cons.mp hg with rfl | hg
    · exact ⟨nextId, row, Nat.le_refl _, by simp, rfl, rfl, hkind, hrow⟩
    · obtain ⟨id, row', hle, hlt, hg⟩ := ih hrest hg
      exact ⟨id, row', by omega, by rw [List.length_cons]; omega, hg⟩

theorem rowGates_get {nextId i : Nat} {kind : GateKind} {row : List Int}
    (h : rows[i]? = some (kind, row)) :
    (⟨kind, str (nextId + i : Nat), row.map str⟩ : Gate) ∈ rowGates nextId rows := by
  induction rows generalizing nextId i with
  | nil => simp at h
  | cons r rows ih =>
    cases i with
    | zero =>
      cases Option.some.inj h
      exact List.mem_cons_self
    | succ i =>
      have hmem : (⟨kind, str (nextId + 1 + i : Nat), row.map str⟩ : Gate) ∈
          rowGates (nextId + 1) rows := ih h
      rw [Nat.add_assoc, Nat.add_comm 1] at hmem
      exact List.mem_cons_of_mem _ hmem

/-- An id has one gate. -/
theorem rowGates_unique {nextId : Nat} (h : Ordered nextId rows) :
    ∀ g ∈ rowGates nextId rows, ∀ g' ∈ rowGates nextId rows, g.output = g'.output → g = g' := by
  induction rows generalizing nextId with
  | nil =>
    intro g hg
    cases hg
  | cons r rows ih =>
    obtain ⟨hkind, hrow, hrest⟩ := h
    have hlater : ∀ g ∈ rowGates (nextId + 1) rows, g.output ≠ str (nextId : Nat) := by
      intro g hg heq
      obtain ⟨id, -, hle, -, hout, -⟩ := mem_rowGates hrest hg
      rw [hout] at heq
      have hid := str_injective heq
      omega
    intro g hg g' hg' heq
    rcases List.mem_cons.mp hg with rfl | hg
    · rcases List.mem_cons.mp hg' with rfl | hg'
      · rfl
      · exact absurd heq.symm (hlater g' hg')
    · rcases List.mem_cons.mp hg' with rfl | hg'
      · exact absurd heq (hlater g hg)
      · exact ih hrest g hg g' hg' heq

theorem mem_numbered {g : Gate} : g ∈ (numbered nVars rows).gates_ ↔
    (∃ v : Nat, 1 ≤ v ∧ v ≤ nVars ∧ g = ⟨.kIdentity, str v, [str v]⟩) ∨
      g ∈ rowGates (nVars + 1) rows ∨ g = ⟨.kTarget, str (nVars + rows.length : Nat), []⟩ := by
  have hinput : g ∈ inputGates nVars ↔
      ∃ v : Nat, 1 ≤ v ∧ v ≤ nVars ∧ g = ⟨.kIdentity, str v, [str v]⟩ := by
    unfold inputGates
    rw [List.mem_map]
    refine exists_congr fun v => ?_
    rw [List.mem_range'_1, eq_comm (a := g)]
    exact ⟨fun h => ⟨h.1.1, by omega, h.2⟩, fun h => ⟨⟨h.1, by omega⟩, h.2.2⟩⟩
  unfold numbered
  rw [List.mem_append, List.mem_append, List.mem_singleton, hinput, or_assoc]

theorem mem_inputs_numbered {v : Nat} (h1 : 1 ≤ v) (hv : v ≤ nVars) :
    str v ∈ (numbered nVars rows).inputs :=
  mem_inputs.mpr ⟨_, mem_numbered.mpr (Or.inl ⟨v, h1, hv, rfl⟩), rfl, rfl⟩

section

variable (hrows : Ordered (nVars + 1) rows)

include hrows

theorem logicGates_numbered {g : Gate} :
    g ∈ (numbered nVars rows).logicGates ↔ g ∈ rowGates (nVars + 1) rows := by
  rw [mem_logicGates, mem_numbered]
  constructor
  · rintro ⟨⟨v, -, -, rfl⟩ | hg | rfl, hkind⟩
    · simp at hkind
    · exact hg
    · simp at hkind
  · intro hg
    obtain ⟨-, -, -, -, -, -, hkind, -⟩ := mem_rowGates hrows hg
    exact ⟨Or.inr (Or.inl hg), hkind⟩

theorem outputs_numbered {name : String} (h : name ∈ (numbered nVars rows).outputs) :
    ∃ id : Nat, nVars < id ∧ id ≤ nVars + rows.length ∧ name = str id := by
  obtain ⟨g, hg, rfl⟩ := mem_outputs.mp h
  obtain ⟨id, -, hle, hlt, hout, -⟩ := mem_rowGates hrows ((logicGates_numbered hrows).mp hg)
  exact ⟨id, hle, by omega, hout⟩

theorem defined_numbered {k : Nat} (h1 : 1 ≤ k) (hk : k ≤ nVars + rows.length) :
    str k ∈ (numbered nVars rows).inputs ∨ str k ∈ (numbered nVars rows).outputs := by
  by_cases hv : k ≤ nVars
  · exact Or.inl (mem_inputs_numbered h1 hv)
  · obtain ⟨i, rfl⟩ := Nat.exists_eq_add_of_lt (Nat.not_le.mp hv)
    have hi : i < rows.length := by omega
    have hget : rows[i]? = some (rows[i].1, rows[i].2) := List.getElem?_eq_getElem hi
    have hmem : (⟨rows[i].1, str (nVars + 1 + i : Nat), rows[i].2.map str⟩ : Gate) ∈
        rowGates (nVars + 1) rows := rowGates_get hget
    rw [Nat.add_right_comm] at hmem
    exact Or.inr (mem_outputs.mpr ⟨_, (logicGates_numbered hrows).mpr hmem, rfl⟩)

/-- The numbers order the gates, so none of them is below itself. -/
theorem numbered_wellFormed (hpos : 1 ≤ nVars + rows.length) :
    (numbered nVars rows).WellFormed where
  built := by
    intro g hg hk
    rcases mem_numbered.mp hg with ⟨v, -, -, rfl⟩ | hg | rfl
    · rfl
    · obtain ⟨-, -, -, -, -, -, hkind, -⟩ := mem_rowGates hrows hg
      simp [hk] at hkind
    · cases hk
  plain := by
    intro g hg hk
    rcases mem_numbered.mp hg with ⟨v, -, -, rfl⟩ | hg | rfl
    · exact tokenNeg_str_natCast v
    · obtain ⟨id, -, -, -, hout, -⟩ := mem_rowGates hrows hg
      rw [hout]
      exact tokenNeg_str_natCast id
    · exact absurd rfl hk
  defined := by
    intro name hname
    obtain ⟨tok, htok, rfl⟩ := List.mem_map.mp hname
    obtain ⟨g, hg, htok⟩ := List.mem_flatMap.mp htok
    have hnumber : ∃ l : Int, tok = str l ∧ 1 ≤ l.natAbs ∧ l.natAbs ≤ nVars + rows.length := by
      rcases mem_numbered.mp hg with ⟨v, h1, hv, rfl⟩ | hg | rfl
      · refine ⟨v, by simpa [Gate.tokens] using htok, by simpa using h1, ?_⟩
        rw [Int.natAbs_natCast]
        omega
      · obtain ⟨id, row, hle, hlt, hout, hin, hkind, hrow⟩ := mem_rowGates hrows hg
        have htokens : g.tokens = str id :: row.map str := by
          rcases hkind with hk | hk <;> simp [Gate.tokens, hk, hout, hin]
        rw [htokens] at htok
        rcases List.mem_cons.mp htok with rfl | htok
        · exact ⟨id, rfl, by rw [Int.natAbs_natCast]; omega, by rw [Int.natAbs_natCast]; omega⟩
        · obtain ⟨l, hl, rfl⟩ := List.mem_map.mp htok
          obtain ⟨h1, hid⟩ := hrow l hl
          exact ⟨l, rfl, h1, by omega⟩
      · refine ⟨(nVars + rows.length : Nat), by simpa [Gate.tokens] using htok, ?_, ?_⟩
        · rw [Int.natAbs_natCast]
          exact hpos
        · rw [Int.natAbs_natCast]
    obtain ⟨l, rfl, h1, hl⟩ := hnumber
    rw [tokenName_str]
    exact defined_numbered hrows h1 hl
  disjoint := by
    rw [Finset.disjoint_left]
    intro name hin hout
    obtain ⟨id, hlt, -, rfl⟩ := outputs_numbered hrows hout
    obtain ⟨g, hg, hk, hname⟩ := mem_inputs.mp hin
    rcases mem_numbered.mp hg with ⟨v, -, hv, rfl⟩ | hg | rfl
    · have hid := str_injective hname
      omega
    · obtain ⟨-, -, -, -, -, -, hkind, -⟩ := mem_rowGates hrows hg
      simp [hk] at hkind
    · cases hk
  unique := by
    intro g hg g' hg'
    rw [logicGates_numbered hrows] at hg hg'
    exact rowGates_unique hrows g hg g' hg'
  acyclic := by
    have hrank : ∀ v : Nat, Nat.ofDigitChars 10 (str v).toList 0 = v := by
      intro v
      rw [toList_str_natCast, Nat.ofDigitChars_ten_toDigits]
    refine ⟨fun name => Nat.ofDigitChars 10 name.toList 0, fun g hg tok htok => ?_⟩
    rw [logicGates_numbered hrows] at hg
    obtain ⟨id, row, -, -, hout, hin, -, hrow⟩ := mem_rowGates hrows hg
    rw [hin] at htok
    obtain ⟨l, hl, rfl⟩ := List.mem_map.mp htok
    dsimp only
    rw [hout, tokenName_str, hrank, hrank]
    exact (hrow l hl).2

theorem evaluate_numbered {α : String → Bool} {i : Nat} {kind : GateKind} {row : List Int}
    (h : rows[i]? = some (kind, row)) :
    (numbered nVars rows).evaluate α (str (nVars + 1 + i : Nat)) =
      Gate.value ((numbered nVars rows).evaluate α)
        ⟨kind, str (nVars + 1 + i : Nat), row.map str⟩ := by
  have hi : i < rows.length := (List.getElem?_eq_some_iff.mp h).1
  have hw := numbered_wellFormed hrows (by omega)
  exact hw.evaluate_gate ((logicGates_numbered hrows).mpr (rowGates_get h))

end

theorem value_row (env : String → Bool) (output : String) (row : List Int) :
    Gate.value env ⟨.kOr, output, row.map str⟩ =
        row.any (literalHolds fun v => env (str v)) ∧
      Gate.value env ⟨.kAnd, output, row.map str⟩ =
        row.all (literalHolds fun v => env (str v)) := by
  have htoken : tokenHolds env ∘ str = literalHolds fun v => env (str v) :=
    funext (tokenHolds_str env)
  exact ⟨by rw [← htoken, ← List.any_map]; rfl, by rw [← htoken, ← List.all_map]; rfl⟩

theorem targetsHold_numbered (hrows : Ordered (nVars + 1) rows) (env : String → Bool) :
    (numbered nVars rows).targetsHold env = env (str (nVars + rows.length : Nat)) := by
  have hlast : tokenHolds env (str (nVars + rows.length : Nat)) =
      env (str (nVars + rows.length : Nat)) := tokenHolds_plain (tokenNeg_str_natCast _)
  rw [targetsHold, Bool.eq_iff_iff, List.all_eq_true, ← hlast]
  constructor
  · intro h
    simpa using h _ (mem_numbered.mpr (Or.inr (Or.inr rfl)))
  · intro h g hg
    rcases mem_numbered.mp hg with ⟨v, -, -, rfl⟩ | hg | rfl
    · rfl
    · obtain ⟨-, -, -, -, -, -, hkind, -⟩ := mem_rowGates hrows hg
      rcases hkind with hk | hk <;> simp [hk]
    · simpa using h

end

section

variable {nVars : Nat} {clauses : List (List Int)}

theorem ordered_append {nextId : Nat} {rows rows' : List Row} (h : Ordered nextId rows)
    (h' : Ordered (nextId + rows.length) rows') : Ordered nextId (rows ++ rows') := by
  induction rows generalizing nextId with
  | nil => exact h'
  | cons row rows ih =>
    obtain ⟨hkind, hrow, hrest⟩ := h
    refine ⟨hkind, hrow, ih hrest ?_⟩
    rwa [List.length_cons, Nat.add_comm rows.length, ← Nat.add_assoc] at h'

theorem ordered_or {nextId : Nat}
    (h : ∀ clause ∈ clauses, ∀ l ∈ clause, 1 ≤ l.natAbs ∧ l.natAbs < nextId) :
    Ordered nextId (clauses.map fun clause => (.kOr, clause)) := by
  induction clauses generalizing nextId with
  | nil => trivial
  | cons clause clauses ih =>
    obtain ⟨hfirst, hrest⟩ := List.forall_mem_cons.mp h
    refine ⟨Or.inr rfl, hfirst, ih fun c hc l hl => ?_⟩
    obtain ⟨h1, hlt⟩ := hrest c hc l hl
    exact ⟨h1, Nat.lt_succ_of_lt hlt⟩

theorem ordered_ids {nextId k : Nat} {kind : GateKind} (hkind : kind = .kAnd ∨ kind = .kOr)
    (hpos : 1 ≤ nextId) : Ordered (nextId + k) [(kind, gateIds nextId k)] := by
  refine ⟨hkind, fun l hl => ?_, trivial⟩
  obtain ⟨v, hv, rfl⟩ := List.mem_map.mp hl
  rw [List.mem_range'_1] at hv
  rw [Int.natAbs_natCast]
  omega

/-- The literals of a CNF are over its variables. -/
def InRange (nVars : Nat) (clauses : List (List Int)) : Prop :=
  ∀ clause ∈ clauses, ∀ l ∈ clause, 1 ≤ l.natAbs ∧ l.natAbs ≤ nVars

theorem cnfRows_ordered (h : InRange nVars clauses) :
    Ordered (nVars + 1) (cnfRows nVars clauses) := by
  unfold cnfRows
  split
  · have htautologies : Ordered (nVars + 1)
        ((List.range' 1 nVars).map fun (v : Nat) => (.kOr, [(v : Int), -(v : Int)])) := by
      have hor : Ordered (nVars + 1) (((List.range' 1 nVars).map fun (v : Nat) =>
          [(v : Int), -(v : Int)]).map fun clause => (.kOr, clause)) := by
        refine ordered_or fun clause hc l hl => ?_
        obtain ⟨v, hv, rfl⟩ := List.mem_map.mp hc
        rw [List.mem_range'_1] at hv
        rcases List.mem_pair.mp hl with rfl | rfl
        · rw [Int.natAbs_natCast]
          omega
        · rw [Int.natAbs_neg, Int.natAbs_natCast]
          omega
      rwa [List.map_map] at hor
    refine ordered_append htautologies ?_
    rw [List.length_map, List.length_range']
    exact ordered_ids (Or.inr rfl) (Nat.succ_pos nVars)
  · refine ordered_append (ordered_or fun clause hc l hl => ?_) ?_
    · obtain ⟨h1, hle⟩ := h clause hc l hl
      exact ⟨h1, Nat.lt_succ_of_le hle⟩
    · split
      · trivial
      · rw [List.length_map]
        exact ordered_ids (Or.inl rfl) (Nat.succ_pos nVars)

theorem length_cnfRows_pos (nVars : Nat) (clauses : List (List Int)) :
    1 ≤ (cnfRows nVars clauses).length := by
  unfold cnfRows
  split
  · simp
  · next hc =>
    rw [List.length_append, List.length_map]
    have hlen := List.length_pos_of_ne_nil hc
    omega

/-- A literal over the inputs has, after evaluation, the value it has before. -/
theorem literalHolds_evaluate {rows : List Row} (hrows : Ordered (nVars + 1) rows)
    (hpos : 1 ≤ nVars + rows.length) (α : String → Bool) {l : Int} (h1 : 1 ≤ l.natAbs)
    (hl : l.natAbs ≤ nVars) :
    literalHolds (fun v => (numbered nVars rows).evaluate α (str v)) l =
      literalHolds (fun v => α (str v)) l := by
  unfold literalHolds
  dsimp only
  rw [(numbered_wellFormed hrows hpos).evaluate_input (mem_inputs_numbered h1 hl)]

theorem evaluate_clause {rows : List Row} (hrows : Ordered (nVars + 1) rows)
    (α : String → Bool) {i : Nat} {clause : List Int} (hget : rows[i]? = some (.kOr, clause))
    (hc : ∀ l ∈ clause, 1 ≤ l.natAbs ∧ l.natAbs ≤ nVars) :
    (numbered nVars rows).evaluate α (str (nVars + 1 + i : Nat)) =
      clause.any (literalHolds fun v => α (str v)) := by
  have hi : i < rows.length := (List.getElem?_eq_some_iff.mp hget).1
  rw [evaluate_numbered hrows hget, (value_row _ _ _).1, Bool.eq_iff_iff, List.any_eq_true,
    List.any_eq_true]
  refine exists_congr fun l => and_congr_right fun hl => ?_
  obtain ⟨h1, hle⟩ := hc l hl
  rw [literalHolds_evaluate hrows (by omega) α h1 hle]

theorem literalHolds_natCast (τ : Nat → Bool) (v : Nat) : literalHolds τ v = τ v := by
  simp [literalHolds]

/-- Without clauses the target is an OR over tautologies, the first of which is over variable 1. -/
theorem evaluate_no_clauses (hone : 1 ≤ nVars) (α : String → Bool) :
    (numbered nVars (cnfRows nVars [])).evaluate α
      (str (nVars + (cnfRows nVars []).length : Nat)) = true := by
  have hrows : Ordered (nVars + 1) (cnfRows nVars []) := cnfRows_ordered (by simp [InRange])
  have hlen : nVars + (cnfRows nVars []).length = nVars + 1 + nVars := by
    simp [cnfRows]
    omega
  have hfirst : (cnfRows nVars [])[0]? = some (.kOr, [(1 : Int), -1]) := by
    obtain ⟨n, rfl⟩ := Nat.exists_eq_add_of_le' hone
    simp [cnfRows, List.range'_succ]
  have hlast : (cnfRows nVars [])[nVars]? = some (.kOr, gateIds (nVars + 1) nVars) := by
    simp [cnfRows]
  have htautology := evaluate_clause hrows α hfirst (by simp [hone])
  rw [hlen, evaluate_numbered hrows hlast, (value_row _ _ _).1]
  refine List.any_eq_true.mpr ⟨(nVars + 1 : Nat), ?_, ?_⟩
  · refine List.mem_map.mpr ⟨nVars + 1, ?_, rfl⟩
    rw [List.mem_range'_1]
    omega
  · rw [literalHolds_natCast]
    refine htautology.trans ?_
    cases hα : α (str (1 : Nat)) <;> simp_all [literalHolds]

theorem evaluate_clauses (h : InRange nVars clauses) (hc : clauses ≠ []) (α : String → Bool)
    {i : Nat} (hi : i < clauses.length) :
    (numbered nVars (cnfRows nVars clauses)).evaluate α (str (nVars + 1 + i : Nat)) =
      clauses[i].any (literalHolds fun v => α (str v)) := by
  refine evaluate_clause (cnfRows_ordered h) α ?_ (h _ (List.getElem_mem hi))
  simp [cnfRows, hc, List.getElem?_append_left, hi]

/-- With two clauses or more, the target is the AND of their gates. -/
theorem evaluate_and (h : InRange nVars clauses) (hlen : 2 ≤ clauses.length)
    (α : String → Bool) :
    (numbered nVars (cnfRows nVars clauses)).evaluate α
        (str (nVars + (cnfRows nVars clauses).length : Nat)) =
      cnfHolds (fun v => α (str v)) clauses := by
  have hc : clauses ≠ [] := List.ne_nil_of_length_pos (by omega)
  have hone : clauses.length ≠ 1 := by omega
  have hlast : (cnfRows nVars clauses)[clauses.length]? =
      some (.kAnd, gateIds (nVars + 1) clauses.length) := by
    simp [cnfRows, hc, hone]
  have htarget : nVars + (cnfRows nVars clauses).length = nVars + 1 + clauses.length := by
    simp [cnfRows, hc, hone]
    omega
  rw [htarget, evaluate_numbered (cnfRows_ordered h) hlast, (value_row _ _ _).2]
  unfold cnfHolds gateIds
  rw [List.all_map, Bool.eq_iff_iff, List.all_eq_true, List.all_eq_true]
  constructor
  · intro hall clause hmem
    obtain ⟨i, hi, rfl⟩ := List.getElem_of_mem hmem
    have hid := hall (nVars + 1 + i) (by rw [List.mem_range'_1]; omega)
    rwa [Function.comp_apply, literalHolds_natCast, evaluate_clauses h hc α hi] at hid
  · intro hall v hv
    rw [List.mem_range'_1] at hv
    obtain ⟨i, rfl⟩ := Nat.exists_eq_add_of_le hv.1
    have hi : i < clauses.length := by omega
    rw [Function.comp_apply, literalHolds_natCast, evaluate_clauses h hc α hi]
    exact hall _ (List.getElem_mem hi)

/-- The target of the gates for a CNF has the value of the CNF. -/
theorem evaluate_cnf (h : InRange nVars clauses) (hc : clauses ≠ [] ∨ 1 ≤ nVars)
    (α : String → Bool) :
    (numbered nVars (cnfRows nVars clauses)).targetsHold
        ((numbered nVars (cnfRows nVars clauses)).evaluate α) =
      cnfHolds (fun v => α (str v)) clauses := by
  rw [targetsHold_numbered (cnfRows_ordered h)]
  match clauses, h, hc with
  | [], _, hc => exact evaluate_no_clauses (hc.resolve_left fun hn => hn rfl) α
  | [clause], h, _ =>
    have hclause := evaluate_clauses h (by simp) α (i := 0) (by simp)
    simpa [cnfRows, cnfHolds] using hclause
  | _ :: _ :: _, h, _ => exact evaluate_and h (by simp) α

/-- The circuit's names are the numbers 1 to `k`, in this order. -/
def Numerals (c : Circuit) (k : Nat) : Prop :=
  c.registered = (List.range' 1 k).map fun (v : Nat) => str v

theorem numerals_fresh : Numerals Circuit.fresh 0 := rfl

section

variable {c : Circuit} {k : Nat}

theorem mem_numerals (h : Numerals c k) {v : Nat} :
    str v ∈ c.registered ↔ 1 ≤ v ∧ v ≤ k := by
  rw [h, List.mem_map]
  constructor
  · rintro ⟨u, hu, heq⟩
    have huv := str_injective heq
    rw [List.mem_range'_1] at hu
    omega
  · intro hv
    refine ⟨v, ?_, rfl⟩
    rw [List.mem_range'_1]
    omega

theorem index_numeral (h : Numerals c k) {v : Nat} (h1 : 1 ≤ v) (hv : v ≤ k) :
    c.index (str v) = v := by
  have hlt : v - 1 < c.registered.length := by
    rw [h, List.length_map, List.length_range']
    omega
  have hget : c.registered[v - 1] = str v := by
    rw [Numerals] at h
    simp only [h, List.getElem_map, List.getElem_range']
    congr 2
    omega
  have hnodup : c.registered.Nodup := c.keys
  rw [Circuit.index_of_mem ((mem_numerals h).mpr ⟨h1, hv⟩), ← hget, hnodup.idxOf_getElem]
  omega

theorem numerals_getLit (h : Numerals c k) {v : Nat} (h1 : 1 ≤ v) (hv : v ≤ k + 1) :
    Numerals (c.getLit (str v)).1 (max k v) := by
  rw [Numerals, (c.getLit_spec (str v)).1]
  split
  next hmem =>
    rw [Nat.max_eq_left ((mem_numerals h).mp hmem).2]
    exact h
  next hmem =>
    obtain rfl : v = k + 1 := by
      by_contra hne
      exact hmem ((mem_numerals h).mpr ⟨h1, by omega⟩)
    rw [Nat.max_eq_right (Nat.le_succ k), List.range'_1_concat, List.map_append, ← h,
      Nat.add_comm k]
    rfl

/-- A gate names the next number at most, and then smaller ones. -/
theorem numerals_after (h : Numerals c k) (v : Nat) (names : List String) (h1 : 1 ≤ v)
    (hv : v ≤ k + 1) (hnames : ∀ name ∈ names, ∃ u : Nat, 1 ≤ u ∧ u ≤ v ∧ name = str u) :
    Numerals (c.after (str v :: names)) (max k v) := by
  have hstep := numerals_getLit h h1 hv
  show Numerals ((c.getLit (str v)).1.after names) (max k v)
  rw [Circuit.after_of_mem]
  · exact hstep
  · intro name hname
    obtain ⟨u, hu1, hu, rfl⟩ := hnames name hname
    exact (mem_numerals hstep).mpr ⟨hu1, by omega⟩

theorem numerals_inputs (h : Numerals c k) (n : Nat) :
    Numerals (c.after ((List.range' 1 n).flatMap fun (v : Nat) => [str v, str v])) (max k n) := by
  induction n with
  | zero =>
    rw [Nat.max_eq_left (Nat.zero_le k)]
    exact h
  | succ n ih =>
    rw [List.range'_1_concat, List.flatMap_append, Circuit.after_append]
    have hstep := numerals_after ih (1 + n) [str (1 + n : Nat)] (by omega) (by omega)
      (List.forall_mem_singleton.mpr ⟨1 + n, by omega, Nat.le_refl _, rfl⟩)
    have hmax : max (max k n) (1 + n) = max k (n + 1) := by omega
    rw [hmax] at hstep
    exact hstep

theorem tokens_row {kind : GateKind} (hkind : kind = .kAnd ∨ kind = .kOr) (id : Nat)
    (row : List Int) : (Gate.tokens ⟨kind, str id, row.map str⟩).map tokenName =
      str id :: row.map fun l => str l.natAbs := by
  rcases hkind with rfl | rfl <;> simp [Gate.tokens, tokenName_str, Function.comp_def]

theorem tokens_inputs (n : Nat) : ((inputGates n).flatMap Gate.tokens).map tokenName =
    (List.range' 1 n).flatMap fun (v : Nat) => [str v, str v] := by
  simp [inputGates, List.flatMap_map, List.map_flatMap, Gate.tokens, tokenName_str]

theorem tokens_target (id : Nat) :
    (Gate.tokens ⟨.kTarget, str id, []⟩).map tokenName = [str id] := by
  simp [Gate.tokens, tokenName_str]

theorem numerals_rows {rows : List Row} {n : Nat} (h : Numerals c k) (hrows : Ordered (n + 1) rows)
    (hn : n ≤ k) :
    Numerals (c.after (((rowGates (n + 1) rows).flatMap Gate.tokens).map tokenName))
      (max k (n + rows.length)) := by
  induction rows generalizing n c k with
  | nil =>
    have hmax : max k (n + ([] : List Row).length) = k := max_eq_left hn
    rw [hmax]
    exact h
  | cons r rows ih =>
    obtain ⟨kind, row⟩ := r
    obtain ⟨hkind, hrow, hrest⟩ := hrows
    rw [rowGates, List.flatMap_cons, List.map_append, Circuit.after_append, tokens_row hkind]
    have hstep : Numerals (c.after (str (n + 1 : Nat) :: row.map fun l => str l.natAbs))
        (max k (n + 1)) := by
      refine numerals_after h (n + 1) _ (by omega) (by omega) fun name hname => ?_
      obtain ⟨l, hl, rfl⟩ := List.mem_map.mp hname
      obtain ⟨h1, hlt⟩ := hrow l hl
      exact ⟨l.natAbs, h1, by omega, rfl⟩
    have hmax : max k (n + (rows.length + 1)) = max (max k (n + 1)) (n + 1 + rows.length) := by
      omega
    rw [List.length_cons, hmax]
    exact ih hstep hrest (by omega)

/-- The names of the formula keep the circuit's names numbers without gaps. -/
theorem numerals_numbered {rows : List Row} (h : Numerals c k) (hrows : Ordered (nVars + 1) rows)
    (hpos : 1 ≤ nVars + rows.length) :
    Numerals (prepareGatesFormula c (numbered nVars rows)).circuit
      (max k (nVars + rows.length)) := by
  have hnames : (numbered nVars rows).names =
      ((List.range' 1 nVars).flatMap fun (v : Nat) => [str v, str v]) ++
        ((rowGates (nVars + 1) rows).flatMap Gate.tokens).map tokenName ++
          [str (nVars + rows.length : Nat)] := by
    let target : Gate := ⟨.kTarget, str (nVars + rows.length : Nat), []⟩
    show ((inputGates nVars ++ rowGates (nVars + 1) rows ++ [target]).flatMap Gate.tokens).map
      tokenName = _
    rw [List.flatMap_append, List.flatMap_append, List.map_append, List.map_append, tokens_inputs,
      List.flatMap_singleton, tokens_target]
  have hgates := numerals_rows (numerals_inputs h nVars) hrows (Nat.le_max_right k nVars)
  have htarget := numerals_after hgates (nVars + rows.length) [] hpos (by omega) (by simp)
  have hmax : max (max (max k nVars) (nVars + rows.length)) (nVars + rows.length) =
      max k (nVars + rows.length) := by
    omega
  rw [(prepareGatesFormula_spec _ _).1, hnames, Circuit.after_append, Circuit.after_append, ← hmax]
  exact htarget

end

end

theorem compileGfInto_none_iff (K : Klay) (solver : Prepared → CallTree) (c : Circuit)
    (nVars : Nat) (clauses : List (List Int)) :
    compileGfInto K solver c nVars clauses = none ↔ clauses = [] ∧ nVars = 0 := by
  by_cases hc : clauses ≠ [] ∨ 1 ≤ nVars
  · rw [compileGfInto, cnfToGatedFormula_eq hc]
    refine iff_of_false (by simp) fun h => ?_
    rcases hc with hn | h1
    · exact hn h.1
    · omega
  · rw [not_or, not_not, Nat.not_le, Nat.lt_one_iff] at hc
    obtain ⟨rfl, rfl⟩ := hc
    exact iff_of_true rfl ⟨rfl, rfl⟩

theorem compileGated_none_iff (K : Klay) (solver : Prepared → CallTree) (nVars : Nat)
    (clauses : List (List Int)) :
    compileGated K solver nVars clauses = none ↔ clauses = [] ∧ nVars = 0 :=
  compileGfInto_none_iff K solver Circuit.fresh nVars clauses

section

variable {K : Klay} {solver : Prepared → CallTree} {c c' : Circuit} {k nVars : Nat}
  {clauses : List (List Int)} {n : Node}

/-- The numbers are those of the CNF's variables whatever was compiled before. -/
theorem compileGfInto_some (hS : K.Simplifies) (hden : K.Denotes) (hneg : K.Complements)
    (hnumerals : Numerals c k) (hrange : InRange nVars clauses)
    (hsolver : ∀ gf, cnfToGatedFormula nVars clauses = some gf → gf.WellFormed →
      (prepareGatesFormula c gf).IsRun (solver (prepareGatesFormula c gf)))
    (hcn : compileGfInto K solver c nVars clauses = some (c', n)) :
    (∃ k', nVars ≤ k' ∧ Numerals c' k') ∧ n.Deterministic ∧
      ∀ σ τ, K.Evaluates (Node.boolean σ) (literalHolds τ) →
        n.denote σ = cnfHolds τ clauses := by
  have hc : clauses ≠ [] ∨ 1 ≤ nVars := by
    by_contra hno
    rw [not_or, not_not, Nat.not_le, Nat.lt_one_iff] at hno
    rw [(compileGfInto_none_iff K solver c nVars clauses).mpr hno] at hcn
    cases hcn
  have hgates := cnfToGatedFormula_eq hc
  have hpos : 1 ≤ nVars + (cnfRows nVars clauses).length :=
    Nat.le_add_left_of_le (length_cnfRows_pos nVars clauses)
  have hw := numbered_wellFormed (cnfRows_ordered hrange) hpos
  rw [compileGfInto, hgates, Option.map_some, Option.some.injEq] at hcn
  obtain ⟨rfl, rfl⟩ := Prod.mk.inj hcn
  let call : GateCall := .formula solver (numbered nVars (cnfRows nVars clauses))
  have hload : call.load = .ok (numbered nVars (cnfRows nVars clauses)) := rfl
  obtain ⟨gf, hload, hdet, hdenote⟩ := compiled_call hS hden hneg hload hw
    (hsolver _ hgates hw) (List.prefix_refl _)
  cases hload
  have hafter := numerals_numbered hnumerals (cnfRows_ordered hrange) hpos
  refine ⟨⟨_, by omega, hafter⟩, hdet, fun σ τ hK => ?_⟩
  refine (hdenote σ τ hK).trans ((evaluate_cnf hrange hc _).trans ?_)
  refine dependsOn_cnfHolds hrange fun v hv => ?_
  obtain ⟨h1, hle⟩ := Finset.mem_Icc.mp (Finset.mem_coe.mp hv)
  dsimp only
  rw [index_numeral hafter h1 (by omega)]

theorem compileGated_some (hS : K.Simplifies) (hden : K.Denotes) (hneg : K.Complements)
    (hrange : InRange nVars clauses)
    (hsolver : ∀ gf, cnfToGatedFormula nVars clauses = some gf → gf.WellFormed →
      (prepareGatesFormula Circuit.fresh gf).IsRun (solver (prepareGatesFormula Circuit.fresh gf)))
    (hcn : compileGated K solver nVars clauses = some (c, n)) :
    (∀ v, 1 ≤ v → v ≤ nVars → c.index (str (v : Nat)) = v) ∧ n.Deterministic ∧
      ∀ σ τ, K.Evaluates (Node.boolean σ) (literalHolds τ) →
        n.denote σ = cnfHolds τ clauses := by
  obtain ⟨⟨k', hk, hnumerals⟩, hn⟩ :=
    compileGfInto_some hS hden hneg numerals_fresh hrange hsolver hcn
  exact ⟨fun v h1 hv => index_numeral hnumerals h1 (hv.trans hk), hn⟩

end

/-- The gates that are made of a CNF compile into a deterministic circuit for the CNF, over the
CNF's own variables; only without clauses and variables there is nothing to compile. -/
theorem compileGated_correct {K : Klay} (hS : K.Simplifies) (hden : K.Denotes)
    (hneg : K.Complements) {solver : Prepared → CallTree} {nVars : Nat} {clauses : List (List Int)}
    (hrange : InRange nVars clauses)
    (hsolver : ∀ gf, cnfToGatedFormula nVars clauses = some gf → gf.WellFormed →
      (prepareGatesFormula Circuit.fresh gf).IsRun (solver (prepareGatesFormula Circuit.fresh gf))) :
    (compileGated K solver nVars clauses = none ↔ clauses = [] ∧ nVars = 0) ∧
      ∀ c n, compileGated K solver nVars clauses = some (c, n) →
        (∀ v, 1 ≤ v → v ≤ nVars → c.index (str (v : Nat)) = v) ∧ n.Deterministic ∧
          ∀ σ τ, K.Evaluates (Node.boolean σ) (literalHolds τ) →
            n.denote σ = cnfHolds τ clauses :=
  ⟨compileGated_none_iff K solver nVars clauses,
    fun _ _ hcn => compileGated_some hS hden hneg hrange hsolver hcn⟩

/-- Variable 1 and not variable 2. -/
def unitClauses : List (List Int) := [[1], [-2]]

theorem unitClauses_inRange : InRange 2 unitClauses := by
  unfold InRange unitClauses
  decide

def unitGates : GatedFormula := numbered 2 (cnfRows 2 unitClauses)

def unitBranch : DataBranch CallTree :=
  ⟨.createTop, [⟨1, false⟩, ⟨2, true⟩, ⟨3, false⟩, ⟨4, false⟩, ⟨5, false⟩], []⟩

def unitRun : CallTree := .manageBranch unitBranch

def unitSolver : Prepared → CallTree := fun _ => unitRun

theorem unitRun_isRun : (prepareGatesFormula Circuit.fresh unitGates).IsRun unitRun where
  scope := by
    have hscope : Finset.Icc 1 (prepareGatesFormula Circuit.fresh unitGates).circuit.nbVars =
        unitBranch.scope ∅ := by decide
    have hp : unitBranch.Partitions ∅ := by
      unfold DataBranch.Partitions
      decide
    rw [hscope]
    exact .manageBranch hp .createTop
  deterministic := .manageBranch trivial .createTop
  plainTops := .manageBranch trivial .createTop
  mentioned := by decide
  equivalent := by
    intro σ
    have hgates : (prepareGatesFormula Circuit.fresh unitGates).problem.gates =
        [⟨.IDENTITY, ⟨1, false⟩, [⟨1, false⟩]⟩, ⟨.IDENTITY, ⟨2, false⟩, [⟨2, false⟩]⟩,
          ⟨.OR, ⟨3, false⟩, [⟨1, false⟩]⟩, ⟨.OR, ⟨4, false⟩, [⟨2, true⟩]⟩,
          ⟨.AND, ⟨5, false⟩, [⟨3, false⟩, ⟨4, false⟩]⟩] := by decide
    have htargets : (prepareGatesFormula Circuit.fresh unitGates).problem.trueLiterals =
        [⟨5, false⟩] := by decide
    rw [ProblemManagerCircuit.sat, hgates, htargets]
    cases h₁ : σ 1 <;> cases h₂ : σ 2 <;> cases h₃ : σ 3 <;> cases h₄ : σ 4 <;>
      simp [unitRun, unitBranch, CallTree.sat, satOperation, DataBranch.unitsHold, CallTree.runBranch,
        BcGate.holds, Lit.holds, h₁, h₂, h₃, h₄]
  units := by
    have hunits : ∀ l ∈ unitBranch.unitLits,
        (prepareGatesFormula Circuit.fresh unitGates).problem.Occurs l.var := by
      unfold ProblemManagerCircuit.Occurs
      decide
    exact .manageBranch hunits .createTop

theorem unitSolver_run {gf : GatedFormula} (h : cnfToGatedFormula 2 unitClauses = some gf) :
    (prepareGatesFormula Circuit.fresh gf).IsRun
      (unitSolver (prepareGatesFormula Circuit.fresh gf)) := by
  have hgates : cnfToGatedFormula 2 unitClauses = some unitGates :=
    cnfToGatedFormula_eq (Or.inl (by simp [unitClauses]))
  obtain rfl : unitGates = gf := Option.some.inj (hgates.symm.trans h)
  exact unitRun_isRun

theorem unitGates_compiled :
    ∃ c n, compileGated Klay.reference unitSolver 2 unitClauses = some (c, n) ∧
      n.Deterministic ∧
        ∀ σ τ, Klay.reference.Evaluates (Node.boolean σ) (literalHolds τ) →
          n.denote σ = cnfHolds τ unitClauses := by
  have hgates : cnfToGatedFormula 2 unitClauses = some unitGates :=
    cnfToGatedFormula_eq (Or.inl (by simp [unitClauses]))
  obtain ⟨-, hcorrect⟩ := compileGated_correct Klay.reference_simplifies reference_complementary
    reference_complements unitClauses_inRange fun gf h _ => unitSolver_run h
  obtain ⟨-, hdet, hdenote⟩ := hcorrect _ _ (by rw [compileGated, hgates]; rfl)
  exact ⟨_, _, by rw [compileGated, hgates]; rfl, hdet, hdenote⟩

end Kompyle
