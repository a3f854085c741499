import Kompyle.BcFile

namespace Kompyle

namespace GatedFormula

def displayGate (g : Gate) : String :=
  match g.kind with
  | .kIdentity => "I " ++ g.output ++ "\n"
  | .kAnd | .kOr =>
    let t := if g.kind = .kAnd then "A" else "O"
    "G " ++ g.output ++ " := " ++ t ++ String.join (g.inputs.map fun i => " " ++ i) ++ "\n"
  | .kTarget => "T " ++ g.output ++ "\n"

/-- What display writes to the stream. -/
def display (gf : GatedFormula) : String := String.join (gf.gates_.map displayGate)

/-- A call of the builder, with its arguments. -/
inductive Call
  | addInput (name : String)
  | addAnd (output : String) (inputs : List String)
  | addOr (output : String) (inputs : List String)
  | addTarget (token : String)
  deriving DecidableEq, Repr

def Call.apply (gf : GatedFormula) : Call → GatedFormula
  | .addInput name => gf.addInput name
  | .addAnd output inputs => gf.addAnd output inputs
  | .addOr output inputs => gf.addOr output inputs
  | .addTarget token => gf.addTarget token

def Call.arguments : Call → List String
  | .addInput name => [name]
  | .addAnd output inputs | .addOr output inputs => output :: inputs
  | .addTarget token => [token]

def build (calls : List Call) : GatedFormula := calls.foldl Call.apply .empty

def Call.gate : Call → Gate
  | .addInput name => ⟨.kIdentity, name, [name]⟩
  | .addAnd output inputs => ⟨.kAnd, output, inputs⟩
  | .addOr output inputs => ⟨.kOr, output, inputs⟩
  | .addTarget token => ⟨.kTarget, token, []⟩

theorem build_gates (calls : List Call) : (build calls).gates_ = calls.map Call.gate := by
  have h : ∀ gf : GatedFormula,
      (calls.foldl Call.apply gf).gates_ = gf.gates_ ++ calls.map Call.gate := by
    induction calls with
    | nil => simp
    | cons call calls ih =>
      intro gf
      rw [List.foldl_cons, ih, List.map_cons, List.append_cons]
      cases call <;> rfl
  exact h .empty

end GatedFormula

/-- A token that the extraction gives back as it is. -/
def IsToken (s : String) : Prop := s ≠ "" ∧ ∀ c ∈ s.toList, isspace c = false

theorem isToken_iff {s : String} :
    IsToken s ↔ s ≠ "" ∧ (s.toList.all fun c => !isspace c) = true := by
  rw [IsToken, List.all_eq_true]
  simp only [Bool.not_eq_true']

/-- A text with empty lines and comment lines inserted between its lines. -/
inductive Padded : List Char → List Char → Prop
  | nil : Padded [] []
  | line (line) {text padded} (hn : '\n' ∉ line) (h : Padded text padded) :
      Padded (line ++ '\n' :: text) (line ++ '\n' :: padded)
  | insert (line) {text padded} (hn : '\n' ∉ line) (hc : line = [] ∨ line.head? = some 'c')
      (h : Padded text padded) : Padded text (line ++ '\n' :: padded)

theorem getlines_line {line : List Char} (hn : '\n' ∉ line) (rest : List Char) :
    getlines (line ++ '\n' :: rest) = line :: getlines rest := by
  induction line with
  | nil => simp [getlines]
  | cons c cs ih =>
    have hc : c ≠ '\n' := fun h => hn (h ▸ List.mem_cons_self)
    have hcs : '\n' ∉ cs := fun h => hn (List.mem_cons_of_mem c h)
    rw [List.cons_append, getlines, if_neg hc, ih hcs]

/-- The inserted lines are the ones that the parser skips. -/
theorem significant_padded {text padded : List Char} (h : Padded text padded) :
    (getlines padded).filter significant = (getlines text).filter significant := by
  induction h with
  | nil => rfl
  | line line hn _ ih => rw [getlines_line hn, getlines_line hn, List.filter_cons, List.filter_cons, ih]
  | insert line hn hc _ ih =>
    rw [getlines_line hn, List.filter_cons_of_neg, ih]
    rcases hc with rfl | hc
    · simp [significant]
    · simp [significant, hc]

/-- A token followed by tokens with a blank before each of them is read as these tokens. -/
theorem tokensOf_spaced {w : String} (hw : IsToken w) {ws : List String}
    (hws : ∀ v ∈ ws, IsToken v) :
    tokensOf (w.toList ++ ws.flatMap fun v => ' ' :: v.toList) = w :: ws := by
  have hkept : ∀ {v : String}, IsToken v → v.toList ≠ [] :=
    fun hv he => hv.1 (String.toList_eq_nil_iff.mp he)
  induction ws generalizing w with
  | nil =>
    rw [List.flatMap_nil, List.append_nil, tokensOf, List.splitOnP_eq_singleton hw.2]
    simp [hkept hw]
  | cons v ws ih =>
    obtain ⟨hv, hws⟩ := List.forall_mem_cons.mp hws
    have hrest := ih hv hws
    rw [tokensOf] at hrest ⊢
    rw [List.flatMap_cons, List.cons_append,
      List.splitOnP_append_cons_of_forall_mem hw.2 ' ' (by decide),
      List.filter_cons_of_pos (by simpa using hkept hw), List.map_cons, hrest,
      String.ofList_toList]

theorem newline_notMem_spaced {w : String} (hw : IsToken w) {ws : List String}
    (hws : ∀ v ∈ ws, IsToken v) : '\n' ∉ w.toList ++ ws.flatMap fun v => ' ' :: v.toList := by
  have hnone : ∀ {v : String}, IsToken v → '\n' ∉ v.toList :=
    fun hv hm => absurd (hv.2 '\n' hm) (by decide)
  intro hm
  rcases List.mem_append.mp hm with hm | hm
  · exact hnone hw hm
  · obtain ⟨v, hv, hm⟩ := List.mem_flatMap.mp hm
    rcases List.mem_cons.mp hm with hm | hm
    · exact absurd hm (by decide)
    · exact hnone (hws v hv) hm

theorem displayed_line {text : String} {g : GatedFormula.Gate} {key : String} (ws : List String)
    (hk : IsToken key) (hws : ∀ v ∈ ws, IsToken v)
    (htext : text.toList = (key.toList ++ ws.flatMap fun v => ' ' :: v.toList) ++ ['\n'])
    (hdecl : ∀ line, line.head? = key.toList.head? → tokensOf line = key :: ws → Declares line g) :
    ∃ line, text.toList = line ++ ['\n'] ∧ '\n' ∉ line ∧ Declares line g := by
  refine ⟨_, htext, newline_notMem_spaced hk hws, hdecl _ ?_ (tokensOf_spaced hk hws)⟩
  have hne : key.toList ≠ [] := fun he => hk.1 (String.toList_eq_nil_iff.mp he)
  rw [List.head?_append_of_ne_nil _ hne]

theorem isToken_keys : IsToken "I" ∧ IsToken "T" ∧ IsToken "G" ∧ IsToken ":=" ∧ IsToken "A" ∧
    IsToken "O" := by
  simp only [isToken_iff]
  decide

theorem significant_of_declares {line : List Char} {g : GatedFormula.Gate}
    (h : Declares line g) : significant line = true := by
  have hhead : line.head? = some 'I' ∨ line.head? = some 'T' ∨ line.head? = some 'G' := by
    cases h with
    | input hkey _ => exact Or.inl hkey
    | target hkey _ => exact Or.inr (Or.inl hkey)
    | and hkey _ => exact Or.inr (Or.inr hkey)
    | or hkey _ => exact Or.inr (Or.inr hkey)
  have hne : line ≠ [] := by
    rintro rfl
    simp at hhead
  rcases hhead with hhead | hhead | hhead <;> simp [significant, hne, hhead]

namespace GatedFormula

/-- What a call adds is displayed as one line, which declares it again. -/
theorem displayGate_declares {call : Call} (h : ∀ s ∈ call.arguments, IsToken s) :
    ∃ line, (displayGate call.gate).toList = line ++ ['\n'] ∧ '\n' ∉ line ∧
      Declares line call.gate := by
  obtain ⟨hI, hT, hG, hdef, hA, hO⟩ := isToken_keys
  cases call with
  | addInput name =>
    refine displayed_line [name] hI h ?_ fun _ hk ht => .input hk ht
    simp [displayGate, Call.gate]
  | addTarget token =>
    refine displayed_line [token] hT h ?_ fun _ hk ht => .target hk ht
    simp [displayGate, Call.gate]
  | addAnd output inputs =>
    obtain ⟨ho, hi⟩ := List.forall_mem_cons.mp h
    refine displayed_line (output :: ":=" :: "A" :: inputs) hG ?_ ?_
      fun _ hk ht => .and hk ht
    · simpa [ho, hdef, hA] using hi
    · simp [displayGate, Call.gate, String.toList_join, List.flatMap_map]
  | addOr output inputs =>
    obtain ⟨ho, hi⟩ := List.forall_mem_cons.mp h
    refine displayed_line (output :: ":=" :: "O" :: inputs) hG ?_ ?_
      fun _ hk ht => .or hk ht
    · simpa [ho, hdef, hO] using hi
    · simp [displayGate, Call.gate, String.toList_join, List.flatMap_map]

theorem displayed_declares {calls : List Call}
    (h : ∀ call ∈ calls, ∀ s ∈ call.arguments, IsToken s) :
    List.Forall₂ Declares
      ((getlines (calls.flatMap fun call => (displayGate call.gate).toList)).filter significant)
      (calls.map Call.gate) := by
  induction calls with
  | nil => exact .nil
  | cons call calls ih =>
    obtain ⟨hcall, hcalls⟩ := List.forall_mem_cons.mp h
    obtain ⟨line, htext, hn, hdecl⟩ := displayGate_declares hcall
    rw [List.flatMap_cons, htext, List.append_assoc, List.singleton_append, getlines_line hn,
      List.filter_cons_of_pos (significant_of_declares hdecl), List.map_cons]
    exact .cons hdecl (ih hcalls)

theorem toList_display (calls : List Call) : (display (build calls)).toList =
    calls.flatMap fun call => (displayGate call.gate).toList := by
  rw [display, String.toList_join, build_gates, List.flatMap_map, List.flatMap_map]

end GatedFormula

open GatedFormula

/-- Parsing undoes displaying, whatever empty lines and comment lines are put in between. -/
theorem parseBcFile_display (bcPath : String) {calls : List Call}
    (h : ∀ call ∈ calls, ∀ s ∈ call.arguments, IsToken s) {content : String}
    (hpad : Padded (display (build calls)).toList content.toList) :
    parseBcFile bcPath (some content) = .ok (build calls) := by
  have hlines := displayed_declares h
  rw [← toList_display, ← significant_padded hpad, ← build_gates] at hlines
  exact parseBcFile_declares bcPath hlines

theorem parseBcFile_commented :
    parseBcFile "f.bc" (some "c inputs\nI c\n\nG I := O\nc T I\nG G := A -c I\n\nT -G\n") =
      .ok (build [.addInput "c", .addOr "I" [], .addAnd "G" ["-c", "I"], .addTarget "-G"]) := by
  refine parseBcFile_display "f.bc" (by simp only [isToken_iff]; decide) ?_
  refine .insert "c inputs".toList (by decide) (Or.inr rfl) ?_
  refine .line "I c".toList (by decide) ?_
  refine .insert [] (by decide) (Or.inl rfl) ?_
  refine .line "G I := O".toList (by decide) ?_
  refine .insert "c T I".toList (by decide) (Or.inr rfl) ?_
  refine .line "G G := A -c I".toList (by decide) ?_
  refine .insert [] (by decide) (Or.inl rfl) ?_
  exact .line "T -G".toList (by decide) .nil

end Kompyle
