import Kompyle.BcReader
import Kompyle.GateSession
import Kompyle.ListLoops

namespace Kompyle

open GatedFormula ListLoops

namespace Util

/-- The dictionary from names to values. -/
abbrev Val := String → Option Bool

def lookup (val : Val) (name : String) : Except PyError Bool :=
  match val name with
  | some v => .ok v
  | none => .error .keyError

def assign (val : Val) (name : String) (v : Bool) : Val := Function.update val name (some v)

/-- The loop over the literals of a gate: `x &= v` or `x |= v`. -/
def accumulate (op : Bool → Bool → Bool) (val : Val) (x : Bool) (lits : List (String × Bool)) :
    Except PyError Bool :=
  lits.foldlM (fun x (name, neg) => do
    let v ← lookup val name
    return op x (if neg then !v else v)) x

def evalGate (val : Val) (gate : BcGate) : Except PyError Val :=
  match gate.gateType with
  | .IDENTITY =>
    match gate.inputs with
    | [] => .error .indexError
    | name :: _ => do
      let x ← lookup val name
      match gate.inputNegated with
      | [] => .error .indexError
      | neg :: _ => return assign val gate.output (if neg then !x else x)
  | .AND => do
    let x ← accumulate (· && ·) val true (gate.inputs.zip gate.inputNegated)
    return assign val gate.output x
  | .OR => do
    let x ← accumulate (· || ·) val false (gate.inputs.zip gate.inputNegated)
    return assign val gate.output x

/-- The columns of the inputs, in order. -/
def readColumns (val : Val) : List String → List Bool → Except PyError Val
  | [], _ => .ok val
  | _ :: _, [] => .error .indexError
  | name :: names, b :: row => readColumns (assign val name b) names row

/-- One row of the batch: every operation works on the rows apart. -/
def evalBcCircuit (bc : BcCircuit) (row : List Bool) : Except PyError Bool := do
  let val ← readColumns (fun _ => none) bc.inputVars row
  let val ← bc.gates.foldlM evalGate val
  accumulate (· && ·) val true (bc.trueLits.zip bc.trueLitsNegated)

def writeColumns (full : List Bool) : List Nat → List Bool → Except PyError (List Bool)
  | [], _ => .ok full
  | _ :: _, [] => .error .indexError
  | cid :: cids, b :: row =>
    if cid < full.length then writeColumns (full.set cid b) cids row else .error .indexError

/-- A row of `full_inputs`: the inputs in the columns of their variables, and zeros elsewhere. -/
def fullInputs (bc : BcCircuit) (nVars : Nat) (row : List Bool) : Except PyError (List Bool) := do
  let cids ← bc.inputVars.mapM fun name =>
    if name ∈ bc.allVars then .ok (bc.allVars.idxOf name) else .error .valueError
  writeColumns (List.replicate nVars false) cids row

/-- Every gate comes after the gates it reads. -/
def inOrder (defined : List String) : List Gate → Bool
  | [] => true
  | g :: gs =>
    if g.isLogic then
      g.inputs.all (fun tok => tokenName tok ∈ defined) && inOrder (g.output :: defined) gs
    else inOrder defined gs

/-- The names with a value, and what it is. -/
def Knows (val : Val) (defined : List String) (env : String → Bool) : Prop :=
  ∀ name, val name = if name ∈ defined then some (env name) else none

section

variable {val : Val} {defined : List String} {env : String → Bool}

theorem Knows.lookup_eq (h : Knows val defined env) {name : String} (hname : name ∈ defined) :
    lookup val name = .ok (env name) := by
  simp [lookup, h name, hname]

theorem Knows.lookup_missing (h : Knows val defined env) {name : String}
    (hname : name ∉ defined) : lookup val name = .error .keyError := by
  simp [lookup, h name, hname]

theorem Knows.assign (h : Knows val defined env) (output : String) :
    Knows (assign val output (env output)) (output :: defined) env := by
  intro name
  by_cases hname : name = output
  · subst hname
    simp [Util.assign]
  · simp [Util.assign, hname, h name]

theorem Knows.assign_again (h : Knows val defined env) {name : String} (hname : name ∈ defined) :
    Knows (Util.assign val name (env name)) defined env := by
  intro other
  rw [h.assign name other]
  by_cases hother : other = name
  · subst hother
    simp [hname]
  · simp [hother]

/-- The literals of the tokens. -/
def litsOf (toks : List String) : List (String × Bool) :=
  (toks.map tokenName).zip (toks.map tokenNeg)

theorem litsOf_cons (tok : String) (toks : List String) :
    litsOf (tok :: toks) = (tokenName tok, tokenNeg tok) :: litsOf toks := rfl

theorem tokenHolds_eq (tok : String) :
    tokenHolds env tok = if tokenNeg tok then !env (tokenName tok) else env (tokenName tok) := by
  unfold tokenHolds
  cases tokenNeg tok <;> simp

theorem accumulate_cons (op : Bool → Bool → Bool) (x : Bool) (tok : String)
    (toks : List String) : accumulate op val x (litsOf (tok :: toks)) =
      lookup val (tokenName tok) >>= fun v =>
        accumulate op val (op x (if tokenNeg tok then !v else v)) (litsOf toks) := by
  rw [litsOf_cons, accumulate, List.foldlM_cons]
  dsimp only
  cases lookup val (tokenName tok) <;> rfl

theorem accumulate_known (op : Bool → Bool → Bool) (h : Knows val defined env)
    {toks : List String} (hdef : ∀ tok ∈ toks, tokenName tok ∈ defined) (x : Bool) :
    accumulate op val x (litsOf toks) =
      .ok (toks.foldl (fun x tok => op x (tokenHolds env tok)) x) := by
  induction toks generalizing x with
  | nil => rfl
  | cons tok toks ih =>
    obtain ⟨htok, htoks⟩ := List.forall_mem_cons.mp hdef
    rw [accumulate_cons, h.lookup_eq htok, List.foldl_cons, ← ih htoks, tokenHolds_eq]
    rfl

theorem accumulate_missing (op : Bool → Bool → Bool) (h : Knows val defined env)
    {toks : List String} (hmiss : ∃ tok ∈ toks, tokenName tok ∉ defined) (x : Bool) :
    accumulate op val x (litsOf toks) = .error .keyError := by
  induction toks generalizing x with
  | nil => simp at hmiss
  | cons tok toks ih =>
    rw [accumulate_cons]
    by_cases htok : tokenName tok ∈ defined
    · have hrest : ∃ tok ∈ toks, tokenName tok ∉ defined := by
        obtain ⟨t, ht, hnot⟩ := hmiss
        rcases List.mem_cons.mp ht with rfl | ht
        · exact absurd htok hnot
        · exact ⟨t, ht, hnot⟩
      rw [h.lookup_eq htok]
      exact ih hrest _
    · rw [h.lookup_missing htok]
      rfl

theorem foldl_and {α : Type*} (f : α → Bool) (as : List α) (x : Bool) :
    as.foldl (fun x a => x && f a) x = (x && as.all f) := by
  induction as generalizing x with
  | nil => simp
  | cons a as ih => rw [List.foldl_cons, ih, List.all_cons, Bool.and_assoc]

theorem foldl_or {α : Type*} (f : α → Bool) (as : List α) (x : Bool) :
    as.foldl (fun x a => x || f a) x = (x || as.any f) := by
  induction as generalizing x with
  | nil => simp
  | cons a as ih => rw [List.foldl_cons, ih, List.any_cons, Bool.or_assoc]

theorem accumulate_and (h : Knows val defined env) {toks : List String}
    (hdef : ∀ tok ∈ toks, tokenName tok ∈ defined) :
    accumulate (· && ·) val true (litsOf toks) = .ok (toks.all (tokenHolds env)) := by
  rw [accumulate_known _ h hdef, foldl_and, Bool.true_and]

theorem accumulate_or (h : Knows val defined env) {toks : List String}
    (hdef : ∀ tok ∈ toks, tokenName tok ∈ defined) :
    accumulate (· || ·) val false (litsOf toks) = .ok (toks.any (tokenHolds env)) := by
  rw [accumulate_known _ h hdef, foldl_or, Bool.false_or]

end

/-- The gate that the reader makes. -/
def bcGate (g : Gate) : Option BcGate :=
  match g.kind with
  | .kIdentity => some ⟨.IDENTITY, g.output, false, [tokenName g.output], [tokenNeg g.output]⟩
  | .kTarget => none
  | _ => some ⟨if g.kind = .kAnd then .AND else .OR, g.output, false, g.inputs.map tokenName,
      g.inputs.map tokenNeg⟩

def evalBuilt (val : Val) (g : Gate) : Except PyError Val :=
  match bcGate g with
  | some gate => evalGate val gate
  | none => .ok val

theorem foldlM_filterMap (gs : List Gate) (val : Val) :
    (gs.filterMap bcGate).foldlM evalGate val = gs.foldlM evalBuilt val := by
  induction gs generalizing val with
  | nil => rfl
  | cons g gs ih =>
    rw [List.foldlM_cons, evalBuilt]
    cases hg : bcGate g with
    | none =>
      rw [List.filterMap_cons_none hg, ih]
      rfl
    | some gate =>
      rw [List.filterMap_cons_some hg, List.foldlM_cons]
      exact bind_congr ih

theorem foldl_addGate (gs : List Gate) (bc : BcCircuit) :
    (gs.foldl addGate bc).inputVars =
        bc.inputVars ++ (gs.filter fun g => g.kind = .kIdentity).map Gate.output ∧
      (gs.foldl addGate bc).gates = bc.gates ++ gs.filterMap bcGate ∧
      (gs.foldl addGate bc).trueLits = bc.trueLits ++
        ((gs.filter fun g => g.kind = .kTarget).map Gate.output).map tokenName ∧
      (gs.foldl addGate bc).trueLitsNegated = bc.trueLitsNegated ++
        ((gs.filter fun g => g.kind = .kTarget).map Gate.output).map tokenNeg := by
  induction gs generalizing bc with
  | nil => simp
  | cons g gs ih =>
    obtain ⟨hin, hgates, hlits, hneg⟩ := ih (addGate bc g)
    rw [List.foldl_cons, hin, hgates, hlits, hneg]
    cases hk : g.kind <;> simp [addGate, bcGate, hk]

section

variable {val : Val} {defined : List String} {env : String → Bool} {g : Gate}

theorem evalBuilt_skipped (hk : g.isLogic = false) (hplain : g.kind ≠ .kTarget →
    tokenNeg g.output = false) (h : Knows val defined env)
    (hdef : g.kind = .kIdentity → g.output ∈ defined) :
    ∃ val', evalBuilt val g = .ok val' ∧ Knows val' defined env := by
  cases hkind : g.kind with
  | kTarget => exact ⟨val, by simp [evalBuilt, bcGate, hkind], h⟩
  | kIdentity =>
    have hneg := hplain (by simp [hkind])
    refine ⟨assign val g.output (env g.output), ?_, h.assign_again (hdef hkind)⟩
    simp only [evalBuilt, bcGate, hkind, evalGate, tokenName_of_plain hneg, hneg, h.lookup_eq (hdef hkind)]
    rfl
  | kAnd => simp [Gate.isLogic, hkind] at hk
  | kOr => simp [Gate.isLogic, hkind] at hk

theorem evalBuilt_logic (hk : g.isLogic = true) (h : Knows val defined env)
    (hdef : ∀ tok ∈ g.inputs, tokenName tok ∈ defined) (henv : env g.output = g.value env) :
    ∃ val', evalBuilt val g = .ok val' ∧ Knows val' (g.output :: defined) env := by
  refine ⟨assign val g.output (env g.output), ?_, h.assign g.output⟩
  rw [henv]
  cases hkind : g.kind with
  | kAnd =>
    simp only [evalBuilt, bcGate, hkind, evalGate, Gate.value, if_true]
    rw [← litsOf, accumulate_and h hdef]
    rfl
  | kOr =>
    simp only [evalBuilt, bcGate, hkind, evalGate, Gate.value, reduceCtorEq, if_false]
    rw [← litsOf, accumulate_or h hdef]
    rfl
  | kTarget => simp [Gate.isLogic, hkind] at hk
  | kIdentity => simp [Gate.isLogic, hkind] at hk

theorem evalBuilt_missing (hk : g.isLogic = true) (h : Knows val defined env)
    (hmiss : ∃ tok ∈ g.inputs, tokenName tok ∉ defined) :
    evalBuilt val g = .error .keyError := by
  cases hkind : g.kind with
  | kAnd =>
    simp only [evalBuilt, bcGate, hkind, evalGate, if_true]
    rw [← litsOf, accumulate_missing _ h hmiss]
    rfl
  | kOr =>
    simp only [evalBuilt, bcGate, hkind, evalGate, reduceCtorEq, if_false]
    rw [← litsOf, accumulate_missing _ h hmiss]
    rfl
  | kTarget => simp [Gate.isLogic, hkind] at hk
  | kIdentity => simp [Gate.isLogic, hkind] at hk

/-- What evaluation asks of the gates of a formula. -/
structure Evaluable (gs : List Gate) (defined : List String) (env : String → Bool) : Prop where
  plain : ∀ g ∈ gs, g.kind ≠ .kTarget → tokenNeg g.output = false
  inputs : ∀ g ∈ gs, g.kind = .kIdentity → g.output ∈ defined
  outputs : ∀ g ∈ gs, g.isLogic = true → env g.output = g.value env

theorem Evaluable.tail {gs : List Gate} {defined' : List String}
    (h : Evaluable (g :: gs) defined env) (hsub : defined ⊆ defined') :
    Evaluable gs defined' env where
  plain g hg := h.plain g (List.mem_cons_of_mem _ hg)
  inputs g hg hk := hsub (h.inputs g (List.mem_cons_of_mem _ hg) hk)
  outputs g hg := h.outputs g (List.mem_cons_of_mem _ hg)

/-- Gates in order are evaluated one after another. -/
theorem evalBuilt_inOrder {gs : List Gate} (he : Evaluable gs defined env)
    (h : Knows val defined env) (horder : inOrder defined gs = true) :
    ∃ val' defined', gs.foldlM evalBuilt val = .ok val' ∧ Knows val' defined' env ∧
      defined ⊆ defined' ∧ ∀ g ∈ gs, g.isLogic = true → g.output ∈ defined' := by
  induction gs generalizing val defined with
  | nil => exact ⟨val, defined, rfl, h, List.Subset.refl _, by simp⟩
  | cons g gs ih =>
    unfold inOrder at horder
    cases hk : g.isLogic with
    | false =>
      rw [if_neg (by simp [hk])] at horder
      obtain ⟨val₁, hstep, h₁⟩ := evalBuilt_skipped hk (he.plain g List.mem_cons_self) h
        (he.inputs g List.mem_cons_self)
      obtain ⟨val', defined', hrun, h', hsub, hout⟩ :=
        ih (he.tail (List.Subset.refl _)) h₁ horder
      refine ⟨val', defined', by rw [List.foldlM_cons, hstep]; exact hrun, h', hsub, ?_⟩
      refine List.forall_mem_cons.mpr ⟨fun hl => ?_, hout⟩
      rw [hk] at hl
      cases hl
    | true =>
      rw [if_pos hk, Bool.and_eq_true, List.all_eq_true] at horder
      have hdef : ∀ tok ∈ g.inputs, tokenName tok ∈ defined := by simpa using horder.1
      obtain ⟨val₁, hstep, h₁⟩ := evalBuilt_logic hk h hdef (he.outputs g List.mem_cons_self hk)
      obtain ⟨val', defined', hrun, h', hsub, hout⟩ :=
        ih (he.tail (List.subset_cons_self _ _)) h₁ horder.2
      obtain ⟨hfirst, hsub⟩ := List.cons_subset.mp hsub
      refine ⟨val', defined', by rw [List.foldlM_cons, hstep]; exact hrun, h', hsub, ?_⟩
      exact List.forall_mem_cons.mpr ⟨fun _ => hfirst, hout⟩

/-- The first gate that reads a later one stops the evaluation. -/
theorem evalBuilt_outOfOrder {gs : List Gate} (he : Evaluable gs defined env)
    (h : Knows val defined env) (horder : inOrder defined gs = false) :
    gs.foldlM evalBuilt val = .error .keyError := by
  induction gs generalizing val defined with
  | nil => cases horder
  | cons g gs ih =>
    unfold inOrder at horder
    rw [List.foldlM_cons]
    cases hk : g.isLogic with
    | false =>
      rw [if_neg (by simp [hk])] at horder
      obtain ⟨val₁, hstep, h₁⟩ := evalBuilt_skipped hk (he.plain g List.mem_cons_self) h
        (he.inputs g List.mem_cons_self)
      rw [hstep]
      exact ih (he.tail (List.Subset.refl _)) h₁ horder
    | true =>
      rw [if_pos hk] at horder
      by_cases hdef : ∀ tok ∈ g.inputs, tokenName tok ∈ defined
      · have hrest : inOrder (g.output :: defined) gs = false := by
          have hall : g.inputs.all (fun tok => tokenName tok ∈ defined) = true := by
            simpa using hdef
          rwa [hall, Bool.true_and] at horder
        obtain ⟨val₁, hstep, h₁⟩ := evalBuilt_logic hk h hdef (he.outputs g List.mem_cons_self hk)
        rw [hstep]
        exact ih (he.tail (List.subset_cons_self _ _)) h₁ hrest
      · push Not at hdef
        rw [evalBuilt_missing hk h hdef]
        rfl

end

/-- The full row: the values of the names in their columns. -/
def mirror (allVars : List String) (val : Val) : List Bool :=
  allVars.map fun name => (val name).getD false

section

variable {allVars : List String}

theorem mirror_none : mirror allVars (fun _ => none) = List.replicate allVars.length false := by
  rw [mirror]
  exact List.map_const' ..

theorem mirror_write (hnodup : allVars.Nodup) (val : Val) {name : String} (hname : name ∈ allVars)
    (b : Bool) :
    (mirror allVars val).set (allVars.idxOf name) b = mirror allVars (assign val name b) := by
  refine List.ext_getElem (by simp [mirror]) fun i hset _ => ?_
  have hi : i < allVars.length := by simpa [mirror] using hset
  rw [List.getElem_set]
  by_cases heq : allVars.idxOf name = i
  · have hget : allVars[i] = name := by
      subst heq
      exact List.getElem_idxOf _
    simp [mirror, assign, heq, hget]
  · have hget : allVars[i] ≠ name := by
      rintro rfl
      exact heq (hnodup.idxOf_getElem i hi)
    simp [mirror, assign, heq, hget]

/-- Both loops over the inputs read the columns of the row. -/
theorem columns_mirrored (hnodup : allVars.Nodup) {names : List String}
    (hnames : ∀ name ∈ names, name ∈ allVars) {row : List Bool}
    (hlen : row.length = names.length) (val : Val) :
    ∃ val', readColumns val names row = .ok val' ∧
      writeColumns (mirror allVars val) (names.map allVars.idxOf) row =
        .ok (mirror allVars val') ∧
      ∀ name, (val' name).isSome = ((val name).isSome || decide (name ∈ names)) := by
  induction names generalizing row val with
  | nil => exact ⟨val, by simp [readColumns], by simp [writeColumns], by simp⟩
  | cons name names ih =>
    obtain ⟨hname, hnames⟩ := List.forall_mem_cons.mp hnames
    cases row with
    | nil => simp at hlen
    | cons b row =>
      obtain ⟨val', hread, hwrite, hsome⟩ := ih hnames (by simpa using hlen) (assign val name b)
      have hlt : allVars.idxOf name < (mirror allVars val).length := by
        rw [mirror, List.length_map]
        exact List.idxOf_lt_length_of_mem hname
      refine ⟨val', hread, ?_, fun other => ?_⟩
      · rw [← mirror_write hnodup val hname b] at hwrite
        exact (if_pos hlt).trans hwrite
      · rw [hsome other]
        by_cases hother : other = name
        · simp [assign, hother]
        · simp [assign, hother]

end

theorem inputVars_ofFormula (gf : GatedFormula) : (ofFormula gf).inputVars =
    (gf.gates_.filter fun g => g.kind = .kIdentity).map Gate.output := by
  rw [ofFormula, (foldl_addGate _ _).1]
  rfl

theorem gates_ofFormula (gf : GatedFormula) :
    (ofFormula gf).gates = gf.gates_.filterMap bcGate := by
  rw [ofFormula, (foldl_addGate _ _).2.1]
  rfl

theorem mem_inputVars {gf : GatedFormula} {name : String} :
    name ∈ (ofFormula gf).inputVars ↔ name ∈ gf.inputs := by
  rw [inputVars_ofFormula, GatedFormula.inputs, List.mem_toFinset]

theorem targetsHold_eq (gf : GatedFormula) (env : String → Bool) : gf.targetsHold env =
    ((gf.gates_.filter fun g => g.kind = .kTarget).map Gate.output).all (tokenHolds env) := by
  rw [targetsHold, List.all_map, List.all_filter]
  refine congrArg gf.gates_.all (funext fun g => ?_)
  by_cases hk : g.kind = .kTarget <;> simp [hk]

/-- Does every gate of the file come after those it reads? -/
def evaluable (gf : GatedFormula) : Bool := inOrder (ofFormula gf).inputVars gf.gates_

section

variable {gf : GatedFormula} (hw : gf.WellFormed)

include hw

theorem input_plain {a : String} (ha : a ∈ gf.inputs) : a ∈ gf.names :=
  hw.mem_names.mpr (Finset.mem_union_left _ ha)

theorem inputs_tracked {a : String} (ha : a ∈ gf.inputs) : a ∈ (ofFormula gf).allVars := by
  rw [allVars_ofFormula hw]
  exact registered_of_mem_names (input_plain hw ha)

theorem allVars_nodup : (ofFormula gf).allVars.Nodup := by
  rw [allVars_ofFormula hw]
  exact (prepareGatesFormula Circuit.fresh gf).circuit.keys

theorem evaluable_evaluate (α : String → Bool) :
    Evaluable gf.gates_ (ofFormula gf).inputVars (gf.evaluate α) := by
  refine ⟨hw.plain, fun g hg hk => ?_, fun g hg hk => ?_⟩
  · exact mem_inputVars.mpr (mem_inputs.mpr ⟨g, hg, hk, rfl⟩)
  · exact hw.evaluate_gate (List.mem_filter.mpr ⟨hg, hk⟩)

theorem knows_inputs {val : Val}
    (hsome : ∀ name, (val name).isSome = decide (name ∈ (ofFormula gf).inputVars)) :
    Knows val (ofFormula gf).inputVars (gf.evaluate fun name => (val name).getD false) := by
  intro name
  have hval := hsome name
  by_cases hname : name ∈ (ofFormula gf).inputVars
  · obtain ⟨b, hb⟩ := Option.isSome_iff_exists.mp (by simpa [hname] using hval)
    rw [if_pos hname, hw.evaluate_input (mem_inputVars.mp hname), hb]
    simp
  · rw [if_neg hname]
    simpa [hname] using hval

/-- What a target names is an input or a gate. -/
theorem target_defined {defined : List String} (hsub : (ofFormula gf).inputVars ⊆ defined)
    (hout : ∀ g ∈ gf.gates_, g.isLogic = true → g.output ∈ defined) :
    ∀ tok ∈ (gf.gates_.filter fun g => g.kind = .kTarget).map Gate.output,
      tokenName tok ∈ defined := by
  intro tok ht
  obtain ⟨g, hg, rfl⟩ := List.mem_map.mp ht
  obtain ⟨hmem, hk⟩ := List.mem_filter.mp hg
  have hname : tokenName g.output ∈ gf.names := by
    refine List.mem_map_of_mem (List.mem_flatMap.mpr ⟨g, hmem, ?_⟩)
    simp [Gate.tokens, of_decide_eq_true hk]
  rcases hw.defined _ hname with hin | hlogic
  · exact hsub (mem_inputVars.mpr hin)
  · obtain ⟨g', hg', houtput⟩ := mem_outputs.mp hlogic
    obtain ⟨hmem', hk'⟩ := List.mem_filter.mp hg'
    rw [← houtput]
    exact hout g' hmem' hk'

/-- The oracle reads an assignment off the row, and evaluates the formula under it if no gate
reads a later one. -/
theorem evalBcCircuit_ofFormula {row : List Bool}
    (hlen : row.length = (ofFormula gf).inputVars.length) :
    ∃ val, readColumns (fun _ => none) (ofFormula gf).inputVars row = .ok val ∧
      fullInputs (ofFormula gf) (ofFormula gf).allVars.length row =
        .ok (mirror (ofFormula gf).allVars val) ∧
      evalBcCircuit (ofFormula gf) row =
        if evaluable gf then .ok (gf.targetsHold (gf.evaluate fun name => (val name).getD false))
        else .error .keyError := by
  have htracked : ∀ name ∈ (ofFormula gf).inputVars, name ∈ (ofFormula gf).allVars :=
    fun name hname => inputs_tracked hw (mem_inputVars.mp hname)
  obtain ⟨val, hread, hwrite, hsome⟩ :=
    columns_mirrored (allVars_nodup hw) htracked hlen fun _ => none
  have hknows := knows_inputs hw hsome
  have heval := evaluable_evaluate hw fun name => (val name).getD false
  refine ⟨val, hread, ?_, ?_⟩
  · have hcids : (ofFormula gf).inputVars.mapM (fun name =>
        if name ∈ (ofFormula gf).allVars then
          Except.ok (ε := PyError) ((ofFormula gf).allVars.idxOf name)
        else .error .valueError) =
          .ok ((ofFormula gf).inputVars.map (ofFormula gf).allVars.idxOf) :=
      mapM_of_forall_ok fun name hname => if_pos (htracked name hname)
    rw [fullInputs, hcids, ← mirror_none]
    exact hwrite
  · rw [evalBcCircuit, hread, gates_ofFormula]
    show (gf.gates_.filterMap bcGate).foldlM evalGate val >>= _ = _
    rw [foldlM_filterMap]
    cases horder : evaluable gf with
    | false =>
      rw [evalBuilt_outOfOrder heval hknows horder]
      rfl
    | true =>
      obtain ⟨val', defined', hrun, hknows', hsub, hout⟩ :=
        evalBuilt_inOrder heval hknows horder
      rw [hrun, targetsHold_eq, ← accumulate_and hknows' (target_defined hw hsub hout), ofFormula]
      show accumulate _ _ _ ((gf.gates_.foldl addGate .empty).trueLits.zip
        (gf.gates_.foldl addGate .empty).trueLitsNegated) = _
      rw [(foldl_addGate _ _).2.2.1, (foldl_addGate _ _).2.2.2]
      rfl

end

end Util

end Kompyle
