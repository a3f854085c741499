import Kompyle.GatedFormula
import Mathlib.Data.List.Forall2

namespace Kompyle

open GatedFormula

/-- The lines std::getline reads until it fails. -/
def getlines : List Char → List (List Char)
  | [] => []
  | c :: cs =>
    if c = '\n' then [] :: getlines cs
    else match getlines cs with
      | [] => [[c]]
      | line :: lines => (c :: line) :: lines

def isspace (c : Char) : Bool := c = ' ' || (9 ≤ c.toNat && c.toNat ≤ 13)

/-- The blank-separated tokens of a line: what is left to extract from an istringstream on it. -/
def tokensOf (line : List Char) : List String :=
  ((line.splitOnP isspace).filter fun w => w ≠ []).map String.ofList

/-- `ss >> token`. A failed extraction leaves the string as it was. -/
def extract (ss : List String) (token : String) : List String × String :=
  match ss with
  | [] => ([], token)
  | w :: ss => (ss, w)

/-- `while (ss >> token) inputs.push_back(token)`, with the value token is left with. -/
def extractAll (ss : List String) (token : String) : List String × String :=
  (ss, ss.getLast?.getD token)

def parseInput (gf : GatedFormula) (token : String) (line : List Char) : GatedFormula × String :=
  let (ss, token) := extract (tokensOf line) token
  let (_, token) := extract ss token
  (gf.addInput token, token)

def parseTarget (gf : GatedFormula) (token : String) (line : List Char) :
    GatedFormula × String :=
  let (ss, token) := extract (tokensOf line) token
  let (_, token) := extract ss token
  (gf.addTarget token, token)

def parseGate (gf : GatedFormula) (token : String) (line : List Char) : GatedFormula × String :=
  let (ss, token) := extract (tokensOf line) token
  let (ss, gateName) := extract ss ""
  let (ss, token) := extract ss token
  let (ss, token) := extract ss token
  let gateType := token.toList.head?
  let (inputs, token) := extractAll ss token
  if gateType = some 'A' then (gf.addAnd gateName inputs, token)
  else (gf.addOr gateName inputs, token)

/-- One turn of the loop. The token of the turn before is still in the variable. -/
def parseBcLine (st : GatedFormula × String) (line : List Char) :
    Except String (GatedFormula × String) :=
  match line with
  | [] => .ok st
  | c :: _ =>
    if c = 'c' then .ok st
    else if c = 'I' then .ok (parseInput st.1 st.2 line)
    else if c = 'T' then .ok (parseTarget st.1 st.2 line)
    else if c = 'G' then .ok (parseGate st.1 st.2 line)
    else .error ("CompileFromGatesFileUsingD4v2: unknown line in bc file: " ++ String.ofList line)

/-- `file` is the content, one character for each byte, if the path can be opened. -/
def parseBcFile (bcPath : String) (file : Option String) : Except String GatedFormula :=
  match file with
  | none => .error ("cannot open: " ++ bcPath)
  | some content => ((getlines content.toList).foldlM parseBcLine (.empty, "")).map Prod.fst

def significant (line : List Char) : Bool := line ≠ [] && line.head? ≠ some 'c'

def significantLines (content : String) : List (List Char) :=
  (getlines content.toList).filter significant

/-- The documented lines and the gates they stand for. Blanks at the end of a line count as
blanks between tokens; a name and a literal are any token, also a name that starts with '-'. -/
inductive Declares : List Char → Gate → Prop
  | input {line name} (hkey : line.head? = some 'I') (h : tokensOf line = ["I", name]) :
      Declares line ⟨.kIdentity, name, [name]⟩
  | target {line literal} (hkey : line.head? = some 'T') (h : tokensOf line = ["T", literal]) :
      Declares line ⟨.kTarget, literal, []⟩
  | and {line name literals} (hkey : line.head? = some 'G')
      (h : tokensOf line = "G" :: name :: ":=" :: "A" :: literals) :
      Declares line ⟨.kAnd, name, literals⟩
  | or {line name literals} (hkey : line.head? = some 'G')
      (h : tokensOf line = "G" :: name :: ":=" :: "O" :: literals) :
      Declares line ⟨.kOr, name, literals⟩

def Dispatched (line : List Char) : Prop :=
  line.head? = some 'I' ∨ line.head? = some 'T' ∨ line.head? = some 'G'

theorem parseBcLine_insignificant {line : List Char} (h : significant line = false)
    (st : GatedFormula × String) : parseBcLine st line = .ok st := by
  cases line with
  | nil => rfl
  | cons c cs =>
    have hc : c = 'c' := by simpa [significant] using h
    simp [parseBcLine, hc]

theorem parseBcLine_dispatched {line : List Char} (h : Dispatched line)
    (st : GatedFormula × String) : ∃ st', parseBcLine st line = .ok st' := by
  cases line with
  | nil => simp [Dispatched] at h
  | cons c cs =>
    simp only [Dispatched, List.head?_cons, Option.some.injEq] at h
    rcases h with rfl | rfl | rfl <;> exact ⟨_, rfl⟩

theorem parseBcLine_unknown {line : List Char} (hs : significant line = true)
    (h : ¬ Dispatched line) (st : GatedFormula × String) :
    parseBcLine st line = .error
      ("CompileFromGatesFileUsingD4v2: unknown line in bc file: " ++ String.ofList line) := by
  cases line with
  | nil => simp [significant] at hs
  | cons c cs =>
    have hc : c ≠ 'c' := by simpa [significant] using hs
    simp only [Dispatched, List.head?_cons, Option.some.injEq, not_or] at h
    simp [parseBcLine, hc, h]

/-- A documented line adds the gate it declares, whatever token the lines before it left. -/
theorem parseBcLine_declares {line : List Char} {g : Gate} (h : Declares line g)
    (gf : GatedFormula) (token : String) :
    ∃ token', parseBcLine (gf, token) line = .ok (⟨gf.gates_ ++ [g]⟩, token') := by
  cases h with
  | input hkey h =>
    obtain ⟨cs, rfl⟩ := List.head?_eq_some_iff.mp hkey
    exact ⟨_, by simp only [parseBcLine, parseInput, h, extract, addInput]; rfl⟩
  | target hkey h =>
    obtain ⟨cs, rfl⟩ := List.head?_eq_some_iff.mp hkey
    exact ⟨_, by simp only [parseBcLine, parseTarget, h, extract, addTarget]; rfl⟩
  | and hkey h =>
    obtain ⟨cs, rfl⟩ := List.head?_eq_some_iff.mp hkey
    exact ⟨_, by simp only [parseBcLine, parseGate, h, extract, extractAll, addAnd]; rfl⟩
  | or hkey h =>
    obtain ⟨cs, rfl⟩ := List.head?_eq_some_iff.mp hkey
    exact ⟨_, by simp only [parseBcLine, parseGate, h, extract, extractAll, addOr]; rfl⟩

theorem parseLines_step {st st' : GatedFormula × String} {line : List Char}
    (h : parseBcLine st line = .ok st') (lines : List (List Char)) :
    (line :: lines).foldlM parseBcLine st = lines.foldlM parseBcLine st' := by
  rw [List.foldlM_cons, h]
  rfl

theorem parseLines_declares (lines : List (List Char)) {gs : List Gate}
    (h : List.Forall₂ Declares (lines.filter significant) gs) (gf : GatedFormula)
    (token : String) :
    ∃ token', lines.foldlM parseBcLine (gf, token) = .ok (⟨gf.gates_ ++ gs⟩, token') := by
  induction lines generalizing gf gs token with
  | nil =>
    cases h
    exact ⟨token, by simp [pure, Except.pure]⟩
  | cons line lines ih =>
    cases hs : significant line with
    | false =>
      rw [List.filter_cons_of_neg (by simp [hs])] at h
      obtain ⟨token', ht⟩ := ih h gf token
      exact ⟨token', by rwa [parseLines_step (parseBcLine_insignificant hs _)]⟩
    | true =>
      rw [List.filter_cons_of_pos hs] at h
      obtain ⟨g, gs', hg, hgs, rfl⟩ := List.forall₂_cons_left_iff.mp h
      obtain ⟨token₁, h₁⟩ := parseBcLine_declares hg gf token
      obtain ⟨token₂, h₂⟩ := ih hgs ⟨gf.gates_ ++ [g]⟩ token₁
      exact ⟨token₂, by simpa [parseLines_step h₁] using h₂⟩

theorem parseLines_dispatched (lines : List (List Char))
    (h : ∀ line ∈ lines, significant line = true → Dispatched line)
    (st : GatedFormula × String) : ∃ st', lines.foldlM parseBcLine st = .ok st' := by
  induction lines generalizing st with
  | nil => exact ⟨st, rfl⟩
  | cons line lines ih =>
    obtain ⟨hl, hls⟩ := List.forall_mem_cons.mp h
    have hstep : ∃ st', parseBcLine st line = .ok st' := by
      cases hs : significant line with
      | false => exact ⟨st, parseBcLine_insignificant hs st⟩
      | true => exact parseBcLine_dispatched (hl hs) st
    obtain ⟨st', hst'⟩ := hstep
    obtain ⟨st'', hst''⟩ := ih hls st'
    exact ⟨st'', by rwa [parseLines_step hst']⟩

theorem parseLines_unknown (lines : List (List Char)) {bad : List Char} (hbad : bad ∈ lines)
    (hs : significant bad = true) (h : ¬ Dispatched bad) (st : GatedFormula × String) :
    ∃ line ∈ lines, significant line = true ∧ ¬ Dispatched line ∧
      lines.foldlM parseBcLine st = .error
        ("CompileFromGatesFileUsingD4v2: unknown line in bc file: " ++ String.ofList line) := by
  induction lines generalizing st with
  | nil => cases hbad
  | cons line lines ih =>
    by_cases hl : significant line = true ∧ ¬ Dispatched line
    · refine ⟨line, List.mem_cons_self, hl.1, hl.2, ?_⟩
      rw [List.foldlM_cons, parseBcLine_unknown hl.1 hl.2]
      rfl
    · have hstep : ∃ st', parseBcLine st line = .ok st' := by
        cases hsl : significant line with
        | false => exact ⟨st, parseBcLine_insignificant hsl st⟩
        | true => exact parseBcLine_dispatched (by_contra fun hd => hl ⟨hsl, hd⟩) st
      obtain ⟨st', hst'⟩ := hstep
      have hrest : bad ∈ lines := by
        rcases List.mem_cons.mp hbad with rfl | hrest
        · exact absurd ⟨hs, h⟩ hl
        · exact hrest
      obtain ⟨first, hmem, hfs, hfd, hrun⟩ := ih hrest st'
      exact ⟨first, List.mem_cons_of_mem line hmem, hfs, hfd,
        by rwa [parseLines_step hst']⟩

theorem exists_declared {lines : List (List Char)} (h : ∀ line ∈ lines, ∃ g, Declares line g) :
    ∃ gs, List.Forall₂ Declares lines gs := by
  induction lines with
  | nil => exact ⟨[], .nil⟩
  | cons line lines ih =>
    obtain ⟨⟨g, hg⟩, hls⟩ := List.forall_mem_cons.mp h
    obtain ⟨gs, hgs⟩ := ih hls
    exact ⟨g :: gs, .cons hg hgs⟩

theorem declared_of_forall₂ {lines : List (List Char)} {gs : List Gate}
    (h : List.Forall₂ Declares lines gs) : ∀ line ∈ lines, ∃ g, Declares line g := by
  induction h with
  | nil => simp
  | cons hg _ ih => exact List.forall_mem_cons.mpr ⟨⟨_, hg⟩, ih⟩

theorem parseBcFile_declares (bcPath : String) {content : String} {gs : List Gate}
    (h : List.Forall₂ Declares (significantLines content) gs) :
    parseBcFile bcPath (some content) = .ok ⟨gs⟩ := by
  obtain ⟨token, hrun⟩ := parseLines_declares (getlines content.toList) h .empty ""
  unfold parseBcFile
  dsimp only
  rw [hrun]
  rfl

theorem parseBcFile_unknown (bcPath : String) {content : String} {bad : List Char}
    (hbad : bad ∈ significantLines content) (hd : ¬ Dispatched bad) :
    ∃ line ∈ significantLines content, ¬ Dispatched line ∧
      parseBcFile bcPath (some content) = .error
        ("CompileFromGatesFileUsingD4v2: unknown line in bc file: " ++ String.ofList line) := by
  obtain ⟨hmem, hs⟩ := List.mem_filter.mp hbad
  obtain ⟨line, hl, hls, hld, hrun⟩ := parseLines_unknown _ hmem hs hd (.empty, "")
  refine ⟨line, List.mem_filter.mpr ⟨hl, hls⟩, hld, ?_⟩
  unfold parseBcFile
  dsimp only
  rw [hrun]
  rfl

theorem parseBcFile_dispatched (bcPath : String) {content : String}
    (h : ∀ line ∈ significantLines content, Dispatched line) :
    ∃ gf, parseBcFile bcPath (some content) = .ok gf := by
  have hall : ∀ line ∈ getlines content.toList, significant line = true → Dispatched line :=
    fun line hl hs => h line (List.mem_filter.mpr ⟨hl, hs⟩)
  obtain ⟨st, hrun⟩ := parseLines_dispatched _ hall (.empty, "")
  refine ⟨st.1, ?_⟩
  unfold parseBcFile
  dsimp only
  rw [hrun]
  rfl

/-- The parser accepts exactly the documented texts, unless every line of an undocumented text
starts with the letter of a documented kind. -/
theorem parseBcFile_iff (bcPath content : String) :
    (∀ gf, parseBcFile bcPath (some content) = .ok gf ↔
        List.Forall₂ Declares (significantLines content) gf.gates_) ↔
      (∀ line ∈ significantLines content, ∃ g, Declares line g) ∨
        ∃ line ∈ significantLines content, ¬ Dispatched line := by
  constructor
  · intro h
    by_cases hd : ∃ line ∈ significantLines content, ¬ Dispatched line
    · exact Or.inr hd
    · push Not at hd
      obtain ⟨gf, hrun⟩ := parseBcFile_dispatched bcPath hd
      exact Or.inl (declared_of_forall₂ ((h gf).mp hrun))
  · intro h gf
    constructor
    · intro hrun
      rcases h with hall | ⟨bad, hbad, hd⟩
      · obtain ⟨gs, hgs⟩ := exists_declared hall
        rw [parseBcFile_declares bcPath hgs] at hrun
        cases hrun
        exact hgs
      · obtain ⟨line, -, -, herr⟩ := parseBcFile_unknown bcPath hbad hd
        rw [herr] at hrun
        cases hrun
    · exact parseBcFile_declares bcPath

/-- An input line without a name declares the input I. -/
theorem not_parseBcFile_exact :
    ¬ ∀ bcPath content gf, parseBcFile bcPath (some content) = .ok gf ↔
        List.Forall₂ Declares (significantLines content) gf.gates_ := by
  intro h
  have hrun : parseBcFile "f.bc" (some "I\n") = .ok ⟨[⟨.kIdentity, "I", ["I"]⟩]⟩ := by decide
  have hlines : significantLines "I\n" = [['I']] := by decide
  have hgs := (h _ _ _).mp hrun
  rw [hlines] at hgs
  cases hgs with
  | cons hg _ =>
    cases hg with
    | input _ htokens => exact absurd (congrArg List.length htokens) (by decide)

end Kompyle
