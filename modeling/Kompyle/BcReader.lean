import Kompyle.GateSemantics
import Kompyle.NameConsistency
import Kompyle.PythonText

namespace Kompyle

open GatedFormula

namespace Util

inductive GateType
  | IDENTITY | AND | OR
  deriving DecidableEq, Repr

structure BcGate where
  gateType : GateType
  output : String
  outputNegated : Bool
  inputs : List String
  inputNegated : List Bool
  deriving DecidableEq, Repr

structure BcCircuit where
  inputVars : List String
  gates : List BcGate
  trueLits : List String
  trueLitsNegated : List Bool
  allVars : List String
  deriving DecidableEq, Repr

def BcCircuit.empty : BcCircuit := ⟨[], [], [], [], []⟩

def parseLit (tok : String) : String × Bool :=
  if tok.toList.head? = some '-' then (String.ofList tok.toList.tail, true) else (tok, false)

/-- `_track_var`. The names that have been seen are those in the list. -/
def trackVar (allVars : List String) (name : String) : List String :=
  if name ∈ allVars then allVars else allVars ++ [name]

def parseI (bc : BcCircuit) (parts : List String) : Except PyError BcCircuit :=
  match parts with
  | [_, name] =>
    let (inpName, inpNeg) := parseLit name
    .ok { bc with
      inputVars := bc.inputVars ++ [name]
      gates := bc.gates ++ [⟨.IDENTITY, name, false, [inpName], [inpNeg]⟩]
      allVars := trackVar (trackVar bc.allVars name) inpName }
  | _ => .error .valueError

def parseG (bc : BcCircuit) (parts : List String) : Except PyError BcCircuit :=
  match parts[1]?, parts[3]? with
  | some outName, some gateTypeChar =>
    let gateType := if gateTypeChar = "A" then .AND else .OR
    let lits := (parts.drop 4).map parseLit
    .ok { bc with
      gates := bc.gates ++ [⟨gateType, outName, false, lits.map Prod.fst, lits.map Prod.snd⟩]
      allVars := (lits.map Prod.fst).foldl trackVar (trackVar bc.allVars outName) }
  | _, _ => .error .indexError

def parseT (bc : BcCircuit) (parts : List String) : Except PyError BcCircuit :=
  match parts[1]? with
  | some litTok =>
    let (name, neg) := parseLit litTok
    .ok { bc with
      trueLits := bc.trueLits ++ [name]
      trueLitsNegated := bc.trueLitsNegated ++ [neg]
      allVars := trackVar bc.allVars name }
  | none => .error .indexError

/-- A line of another kind is passed over. -/
def parseBcLine (bc : BcCircuit) (line : List Char) : Except PyError BcCircuit :=
  let line := pyStrip line
  if line = [] || line.head? = some 'c' then .ok bc
  else
    let parts := (pySplit line).map String.ofList
    if parts.head? = some "I" then parseI bc parts
    else if parts.head? = some "G" then parseG bc parts
    else if parts.head? = some "T" then parseT bc parts
    else .ok bc

def parseBcFile (content : String) : Except PyError BcCircuit :=
  (getlines (universalNewlines content.toList)).foldlM parseBcLine .empty

/-- What the reader adds for a gate. -/
def addGate (bc : BcCircuit) (g : Gate) : BcCircuit :=
  match g.kind with
  | .kIdentity =>
    { bc with
      inputVars := bc.inputVars ++ [g.output]
      gates := bc.gates ++
        [⟨.IDENTITY, g.output, false, [tokenName g.output], [tokenNeg g.output]⟩]
      allVars := trackVar (trackVar bc.allVars g.output) (tokenName g.output) }
  | .kTarget =>
    { bc with
      trueLits := bc.trueLits ++ [tokenName g.output]
      trueLitsNegated := bc.trueLitsNegated ++ [tokenNeg g.output]
      allVars := trackVar bc.allVars (tokenName g.output) }
  | _ =>
    { bc with
      gates := bc.gates ++ [⟨if g.kind = .kAnd then .AND else .OR, g.output, false,
        g.inputs.map tokenName, g.inputs.map tokenNeg⟩]
      allVars := (g.inputs.map tokenName).foldl trackVar (trackVar bc.allVars g.output) }

def ofFormula (gf : GatedFormula) : BcCircuit := gf.gates_.foldl addGate .empty

theorem parseLit_eq (tok : String) : parseLit tok = (tokenName tok, tokenNeg tok) := by
  rw [tokenName_eq, tokenNeg_eq]
  unfold parseLit
  by_cases h : tok.toList.head? = some '-'
  · simp [h]
  · simp [h]

section

variable {line : List Char} (hplain : PlainText line)

include hplain

theorem parseBcLine_insignificant (hs : significant line = false) (bc : BcCircuit) :
    parseBcLine bc line = .ok bc := by
  unfold parseBcLine
  cases line with
  | nil => rfl
  | cons c cs =>
    have hc : c = 'c' := by simpa [significant] using hs
    subst hc
    obtain ⟨ds, hds⟩ := pyStrip_cons (c := 'c') (by decide) cs
    simp [hds]

/-- On a documented line both readers find the same tokens. -/
theorem parseBcLine_declares {g : Gate} (h : Declares line g) (bc : BcCircuit) :
    parseBcLine bc line = .ok (addGate bc g) := by
  have hwords : (pySplit (pyStrip line)).map String.ofList = tokensOf line := by
    rw [pySplit_pyStrip, hplain.pySplit_eq]
  have hkept : ∀ {c : Char}, line.head? = some c → pySpace c = false → c ≠ 'c' →
      (pyStrip line = [] || (pyStrip line).head? = some 'c') = false := by
    intro c hhead hc hne
    obtain ⟨cs, rfl⟩ := List.head?_eq_some_iff.mp hhead
    obtain ⟨ds, hds⟩ := pyStrip_cons hc cs
    simp [hds, hne]
  unfold parseBcLine
  dsimp only
  rw [hwords]
  cases h with
  | input hkey h =>
    rw [hkept hkey (by decide) (by decide), h]
    simp [parseI, parseLit_eq, addGate]
  | target hkey h =>
    rw [hkept hkey (by decide) (by decide), h]
    simp [parseT, parseLit_eq, addGate]
  | and hkey h =>
    rw [hkept hkey (by decide) (by decide), h]
    simp [parseG, parseLit_eq, addGate, Function.comp_def]
  | or hkey h =>
    rw [hkept hkey (by decide) (by decide), h]
    simp [parseG, parseLit_eq, addGate, Function.comp_def]

end

theorem parseLines_declares (lines : List (List Char)) (hplain : ∀ line ∈ lines, PlainText line)
    {gs : List Gate} (h : List.Forall₂ Declares (lines.filter significant) gs) (bc : BcCircuit) :
    lines.foldlM parseBcLine bc = .ok (gs.foldl addGate bc) := by
  induction lines generalizing gs bc with
  | nil =>
    cases h
    rfl
  | cons line lines ih =>
    obtain ⟨hline, hlines⟩ := List.forall_mem_cons.mp hplain
    rw [List.foldlM_cons]
    cases hs : significant line with
    | false =>
      rw [List.filter_cons_of_neg (by simp [hs])] at h
      rw [parseBcLine_insignificant hline hs]
      exact ih hlines h bc
    | true =>
      rw [List.filter_cons_of_pos hs] at h
      obtain ⟨g, gs', hg, hgs, rfl⟩ := List.forall₂_cons_left_iff.mp h
      rw [parseBcLine_declares hline hg]
      exact ih hlines hgs (addGate bc g)

theorem parseBcFile_declares {content : String} (hplain : PlainText content.toList)
    {gf : GatedFormula} (h : List.Forall₂ Declares (significantLines content) gf.gates_) :
    parseBcFile content = .ok (ofFormula gf) := by
  have hreturn : '\r' ∉ content.toList := fun hm => (hplain '\r' hm).2.2 rfl
  unfold parseBcFile
  rw [universalNewlines_eq hreturn]
  exact parseLines_declares _ (fun line hl c hc => hplain c (mem_getlines hl hc)) h _

theorem registered_getLit (c : Circuit) (name : String) :
    (c.getLit name).1.registered = trackVar c.registered name := (c.getLit_spec name).1

theorem registered_after (c : Circuit) (seen : List String) :
    (c.after seen).registered = seen.foldl trackVar c.registered := by
  induction seen generalizing c with
  | nil => rfl
  | cons name seen ih =>
    rw [List.foldl_cons, ← registered_getLit]
    exact ih (c.getLit name).1

theorem allVars_addGate {g : Gate} (bc : BcCircuit)
    (hplain : g.kind ≠ .kTarget → tokenNeg g.output = false)
    (hbuilt : g.kind = .kIdentity → g.inputs = [g.output]) :
    (addGate bc g).allVars = g.names.foldl trackVar bc.allVars := by
  have hname : g.kind ≠ .kTarget → tokenName g.output = g.output := by
    intro hk
    exact tokenName_of_plain (hplain hk)
  unfold addGate Gate.names Gate.tokens
  cases hk : g.kind with
  | kIdentity => simp [hname (by simp [hk]), hbuilt hk]
  | kTarget => simp
  | kAnd => simp [hname (by simp [hk])]
  | kOr => simp [hname (by simp [hk])]

/-- The reader numbers the variables as a new circuit does. -/
theorem allVars_ofFormula {gf : GatedFormula} (hw : gf.WellFormed) :
    (ofFormula gf).allVars = (prepareGatesFormula Circuit.fresh gf).circuit.registered := by
  have hfold : ∀ (gs : List Gate) (bc : BcCircuit),
      (∀ g ∈ gs, g.kind ≠ .kTarget → tokenNeg g.output = false) →
      (∀ g ∈ gs, g.kind = .kIdentity → g.inputs = [g.output]) →
        (gs.foldl addGate bc).allVars = (gs.flatMap Gate.names).foldl trackVar bc.allVars := by
    intro gs
    induction gs with
    | nil => intro bc _ _; rfl
    | cons g gs ih =>
      intro bc hplain hbuilt
      obtain ⟨hp, hps⟩ := List.forall_mem_cons.mp hplain
      obtain ⟨hb, hbs⟩ := List.forall_mem_cons.mp hbuilt
      rw [List.foldl_cons, ih _ hps hbs, allVars_addGate bc hp hb, List.flatMap_cons,
        List.foldl_append]
  have hnames : gf.names = gf.gates_.flatMap Gate.names := by
    rw [GatedFormula.names, GatedFormula.tokens, List.map_flatMap]
    rfl
  rw [(prepareGatesFormula_spec _ _).1, registered_after, hnames]
  exact hfold gf.gates_ .empty hw.plain hw.built

end Util

end Kompyle
