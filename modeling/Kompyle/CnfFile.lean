import Kompyle.ListLoops
import Kompyle.PythonInt
import Kompyle.PythonText

namespace Kompyle

open ListLoops

/-- `str` raises a ValueError where the number has more digits than the interpreter allows. -/
def pyStr (limit : Nat) (l : Int) : Except PyError String :=
  if Fits limit l then .ok (str l) else .error .valueError

def pyInt (limit : Nat) (s : List Char) : Except PyError Int :=
  match pyLongFromString limit s with
  | none => .error .valueError
  | some n => .ok n

def writeClause (limit : Nat) (clause : List Int) : Except PyError String := do
  let words ← clause.mapM (pyStr limit)
  return " ".intercalate words ++ " 0\n"

/-- What is written to the file. -/
def writeCnf (limit : Nat) (nVars : Int) (clauses : List (List Int)) : Except PyError String := do
  let n ← pyStr limit nVars
  let m ← pyStr limit clauses.length
  let lines ← clauses.mapM (writeClause limit)
  return "p cnf " ++ n ++ " " ++ m ++ "\n" ++ String.join lines

def parseCnfLine (limit : Nat) (st : Int × List (List Int)) (line : List Char) :
    Except PyError (Int × List (List Int)) :=
  let line := pyStrip line
  if line = [] || line.head? = some 'c' then .ok st
  else if line.head? = some 'p' then
    match (pySplit line)[2]? with
    | none => .error .indexError
    | some w => (pyInt limit w).map fun n => (n, st.2)
  else
    (((pySplit line).filter fun w => w ≠ ['0']).mapM (pyInt limit)).map fun lits =>
      if lits = [] then st else (st.1, st.2 ++ [lits])

def parseCnf (limit : Nat) (content : String) : Except PyError (Int × List (List Int)) :=
  (getlines (universalNewlines content.toList)).foldlM (parseCnfLine limit) (0, [])

theorem pySpace_of_isDigit {c : Char} (h : c.isDigit) : pySpace c = false := by
  have hrange : 48 ≤ c.toNat ∧ c.toNat ≤ 57 := by
    simp only [Char.isDigit, Bool.and_eq_true, decide_eq_true_eq] at h
    exact h
  simp only [pySpace, not_isspace_of_isDigit h]
  simp
  omega

theorem isWord_str (l : Int) : IsWord (str l).toList := by
  by_cases h : l < 0
  · rw [toList_str_of_neg h]
    refine ⟨List.cons_ne_nil _ _, List.forall_mem_cons.mpr ⟨by decide, fun c hc => ?_⟩⟩
    exact pySpace_of_isDigit (isDigit_toDigits hc)
  · rw [toList_str_of_nonneg (Int.not_lt.mp h)]
    exact ⟨Nat.toDigits_ne_nil, fun c hc => pySpace_of_isDigit (isDigit_toDigits hc)⟩

theorem str_eq_zero {l : Int} : (str l).toList = ['0'] ↔ l = 0 := by
  constructor
  · intro h
    by_cases hneg : l < 0
    · rw [toList_str_of_neg hneg] at h
      exact absurd (List.head_eq_of_cons_eq h) (by decide)
    · rw [toList_str_of_nonneg (Int.not_lt.mp hneg)] at h
      have habs := congrArg (fun cs => Nat.ofDigitChars 10 cs 0) h
      simp only [Nat.ofDigitChars_ten_toDigits] at habs
      have hzero : l.natAbs = 0 := habs
      omega
  · rintro rfl
    rfl

/-- The line that is written for a clause. -/
def clauseLine : List Int → List Char
  | [] => [' ', '0']
  | l :: ls => spaced (str l).toList ((ls.map fun l => (str l).toList) ++ [['0']])

def headerLine (nVars : Int) (clauses : List (List Int)) : List Char :=
  spaced ['p'] [['c', 'n', 'f'], (str nVars).toList, (str clauses.length).toList]

/-- What a clause is after a file has been written and read. -/
def readBack (clauses : List (List Int)) : List (List Int) :=
  (clauses.map fun clause => clause.filter fun l => l ≠ 0).filter fun clause => clause ≠ []

section

variable {limit : Nat} {nVars : Int} {clauses : List (List Int)}

theorem pyStr_ok {l : Int} {w : String} (h : pyStr limit l = .ok w) :
    Fits limit l ∧ w = str l := by
  unfold pyStr at h
  split at h
  next hfits => exact ⟨hfits, (Except.ok.inj h).symm⟩
  next => cases h

theorem pyInt_str {l : Int} (h : Fits limit l) : pyInt limit (str l).toList = .ok l := by
  simp only [pyInt, pyLongFromString_str, if_pos h]

theorem toList_intercalate_str (l : Int) (ls : List Int) :
    (" ".intercalate ((l :: ls).map str)).toList =
      spaced (str l).toList (ls.map fun l => (str l).toList) := by
  induction ls generalizing l with
  | nil => simp [spaced]
  | cons m ls ih =>
    rw [List.map_cons, List.map_cons, String.intercalate_cons_cons, String.toList_append,
      ← List.map_cons, ih]
    simp [spaced]

theorem writeClause_ok {clause : List Int} {text : String}
    (h : writeClause limit clause = .ok text) :
    (∀ l ∈ clause, Fits limit l) ∧ text = String.ofList (clauseLine clause ++ ['\n']) := by
  unfold writeClause at h
  cases hwords : clause.mapM (pyStr limit) with
  | error e =>
    rw [hwords] at h
    cases h
  | ok words =>
    rw [hwords] at h
    obtain ⟨hfits, rfl⟩ := forall_of_mapM_ok (P := Fits limit) (g := str)
      (fun _ _ => pyStr_ok) hwords
    refine ⟨hfits, ?_⟩
    cases h
    rw [← String.toList_inj, String.toList_append, String.toList_ofList]
    cases clause with
    | nil => rfl
    | cons l ls =>
      rw [toList_intercalate_str]
      simp [clauseLine, spaced]

theorem writeCnf_ok {content : String} (h : writeCnf limit nVars clauses = .ok content) :
    Fits limit nVars ∧ (∀ clause ∈ clauses, ∀ l ∈ clause, Fits limit l) ∧
      content.toList = headerLine nVars clauses ++ '\n' ::
        clauses.flatMap fun clause => clauseLine clause ++ ['\n'] := by
  unfold writeCnf at h
  cases hn : pyStr limit nVars with
  | error e =>
    rw [hn] at h
    cases h
  | ok n =>
    cases hm : pyStr limit clauses.length with
    | error e =>
      rw [hn, hm] at h
      cases h
    | ok m =>
      cases hlines : clauses.mapM (writeClause limit) with
      | error e =>
        rw [hn, hm, hlines] at h
        cases h
      | ok lines =>
        rw [hn, hm, hlines] at h
        obtain ⟨hfits, rfl⟩ := pyStr_ok hn
        obtain ⟨-, rfl⟩ := pyStr_ok hm
        obtain ⟨hall, rfl⟩ := forall_of_mapM_ok (fun _ _ => writeClause_ok) hlines
        refine ⟨hfits, hall, ?_⟩
        cases h
        simp only [String.toList_append, String.toList_join, List.flatMap_map,
          String.toList_ofList]
        simp [headerLine, spaced]

theorem head_str {l : Int} {c : Char} (h : (str l).toList.head? = some c) :
    c ≠ 'c' ∧ c ≠ 'p' := by
  have hc : c = '-' ∨ c.isDigit := by
    by_cases hneg : l < 0
    · rw [toList_str_of_neg hneg] at h
      exact Or.inl (Option.some.inj h).symm
    · rw [toList_str_of_nonneg (Int.not_lt.mp hneg)] at h
      exact Or.inr (isDigit_toDigits (List.mem_of_mem_head? h))
  refine ⟨?_, ?_⟩ <;> rintro rfl <;> revert hc <;> decide

theorem isWord_clause (clause : List Int) :
    ∀ v ∈ (clause.map fun l => (str l).toList) ++ [['0']], IsWord v := by
  intro v hv
  rcases List.mem_append.mp hv with hv | hv
  · obtain ⟨l, -, rfl⟩ := List.mem_map.mp hv
    exact isWord_str l
  · rw [List.mem_singleton.mp hv]
    exact isWord_str 0

/-- The zero at the end goes, and any other zero with it. -/
theorem filter_words (clause : List Int) :
    ((clause.map fun l => (str l).toList) ++ [['0']]).filter (fun w => w ≠ ['0']) =
      (clause.filter fun l => l ≠ 0).map fun l => (str l).toList := by
  rw [List.filter_append, List.filter_map]
  have hzero : ((fun w => decide (w ≠ ['0'])) ∘ fun l : Int => (str l).toList) =
      fun l => decide (l ≠ 0) := by
    funext l
    exact decide_eq_decide.mpr (not_congr str_eq_zero)
  rw [hzero]
  simp

theorem readBack_cons (clause : List Int) (clauses : List (List Int)) :
    readBack (clause :: clauses) =
      (if (clause.filter fun l => l ≠ 0) = [] then [] else [clause.filter fun l => l ≠ 0]) ++
        readBack clauses := by
  unfold readBack
  rw [List.map_cons, List.filter_cons]
  by_cases h : (clause.filter fun l => l ≠ 0) = []
  · rw [if_pos h, if_neg (by simpa using h), List.nil_append]
  · rw [if_neg h, if_pos (by simpa using h), List.singleton_append]

theorem parseCnfLine_clause {clause : List Int} (hfits : ∀ l ∈ clause, Fits limit l)
    (st : Int × List (List Int)) :
    parseCnfLine limit st (clauseLine clause) = .ok (st.1, st.2 ++ readBack [clause]) := by
  cases clause with
  | nil =>
    have hline : pyStrip (clauseLine []) = ['0'] := by decide
    have hwords : ((pySplit ['0']).filter fun w => w ≠ ['0']) = [] := by decide
    simp only [parseCnfLine, hline, hwords]
    simp [Except.map, readBack, pure, Except.pure]
  | cons l ls =>
    have hws := isWord_clause ls
    have hread : (((l :: ls).filter fun l => l ≠ 0).map fun l => (str l).toList).mapM
        (pyInt limit) = .ok ((l :: ls).filter fun l => l ≠ 0) := by
      rw [List.mapM_map]
      have hint : ∀ m ∈ (l :: ls).filter fun l => l ≠ 0,
          pyInt limit (str m).toList = .ok (id m) :=
        fun m hm => pyInt_str (hfits m (List.mem_of_mem_filter hm))
      have hok := mapM_of_forall_ok hint
      rwa [List.map_id] at hok
    obtain ⟨c, cs, hc⟩ := List.exists_cons_of_ne_nil (isWord_str l).1
    obtain ⟨hnc, hnp⟩ := head_str (l := l) (c := c) (by simp [hc])
    have hline : clauseLine (l :: ls) = c :: (cs ++
        ((ls.map fun l => (str l).toList) ++ [['0']]).flatMap (' ' :: ·)) := by
      simp [clauseLine, spaced, hc]
    have hwords : ((pySplit (clauseLine (l :: ls))).filter fun w => w ≠ ['0']) =
        ((l :: ls).filter fun l => l ≠ 0).map fun l => (str l).toList := by
      rw [clauseLine, pySplit_spaced (isWord_str l) hws, ← filter_words]
      rfl
    have hstrip : pyStrip (clauseLine (l :: ls)) = clauseLine (l :: ls) :=
      pyStrip_spaced (isWord_str l) hws
    unfold parseCnfLine
    dsimp only
    rw [hstrip, hwords, hread, hline, if_neg (by simp [hnc]), if_neg (by simp [hnp])]
    refine congrArg Except.ok ?_
    dsimp only
    rw [readBack_cons]
    by_cases hnil : ((l :: ls).filter fun l => l ≠ 0) = []
    · rw [if_pos hnil, if_pos hnil]
      exact congrArg (Prod.mk st.1) (List.append_nil st.2).symm
    · rw [if_neg hnil, if_neg hnil]
      rfl

theorem parseCnfLine_header (hn : Fits limit nVars) (st : Int × List (List Int)) :
    parseCnfLine limit st (headerLine nVars clauses) = .ok (nVars, st.2) := by
  have hws : ∀ v ∈ [['c', 'n', 'f'], (str nVars).toList, (str clauses.length).toList],
      IsWord v := by
    intro v hv
    rcases List.mem_cons.mp hv with rfl | hv
    · exact isWord_iff.mpr (by decide)
    · rcases List.mem_pair.mp hv with rfl | rfl
      · exact isWord_str nVars
      · exact isWord_str _
  have hp : IsWord ['p'] := isWord_iff.mpr (by decide)
  have hwords : pySplit (headerLine nVars clauses) =
      [['p'], ['c', 'n', 'f'], (str nVars).toList, (str clauses.length).toList] :=
    pySplit_spaced hp hws
  have hstrip : pyStrip (headerLine nVars clauses) = headerLine nVars clauses :=
    pyStrip_spaced hp hws
  have hhead : (headerLine nVars clauses).head? = some 'p' := rfl
  have hne : headerLine nVars clauses ≠ [] := by simp [headerLine, spaced]
  unfold parseCnfLine
  dsimp only
  rw [hstrip, hwords, hhead, if_neg (by simp [hne]), if_pos rfl]
  simp only [List.getElem?_cons_succ, List.getElem?_cons_zero, pyInt_str hn]
  rfl

theorem parse_clauses (h : ∀ clause ∈ clauses, ∀ l ∈ clause, Fits limit l)
    (st : Int × List (List Int)) :
    (clauses.map clauseLine).foldlM (parseCnfLine limit) st =
      .ok (st.1, st.2 ++ readBack clauses) := by
  induction clauses generalizing st with
  | nil => simp [readBack, pure, Except.pure]
  | cons clause clauses ih =>
    obtain ⟨hfirst, hrest⟩ := List.forall_mem_cons.mp h
    rw [List.map_cons, List.foldlM_cons, parseCnfLine_clause hfirst]
    refine (ih hrest _).trans ?_
    have hback : readBack (clause :: clauses) = readBack [clause] ++ readBack clauses := by
      rw [readBack_cons, readBack_cons clause [], List.append_assoc]
      rfl
    rw [hback, List.append_assoc]

theorem notMem_clauseLine {c : Char} (hc : pySpace c = true) (hblank : c ≠ ' ')
    (clause : List Int) : c ∉ clauseLine clause := by
  cases clause with
  | nil =>
    intro hm
    rcases List.mem_pair.mp hm with rfl | rfl
    · exact hblank rfl
    · revert hc
      decide
  | cons l ls => exact notMem_spaced hc hblank (isWord_str l) (isWord_clause ls)

theorem getlines_clauses :
    getlines (clauses.flatMap fun clause => clauseLine clause ++ ['\n']) =
      clauses.map clauseLine := by
  induction clauses with
  | nil => rfl
  | cons clause clauses ih =>
    have hn : '\n' ∉ clauseLine clause := notMem_clauseLine (by decide) (by decide) clause
    rw [List.flatMap_cons, List.append_assoc, List.singleton_append, getlines_line hn, ih,
      List.map_cons]

theorem notMem_headerLine {c : Char} (hc : pySpace c = true) (hblank : c ≠ ' ') :
    c ∉ headerLine nVars clauses := by
  refine notMem_spaced hc hblank (isWord_iff.mpr (by decide)) fun v hv => ?_
  rcases List.mem_cons.mp hv with rfl | hv
  · exact isWord_iff.mpr (by decide)
  · rcases List.mem_pair.mp hv with rfl | rfl
    · exact isWord_str nVars
    · exact isWord_str _

theorem readBack_eq_iff :
    readBack clauses = clauses ↔ ∀ clause ∈ clauses, clause ≠ [] ∧ 0 ∉ clause := by
  constructor
  · intro h clause hmem
    rw [← h] at hmem
    obtain ⟨hmem, hne⟩ := List.mem_filter.mp hmem
    obtain ⟨clause', -, rfl⟩ := List.mem_map.mp hmem
    exact ⟨by simpa using hne, by simp⟩
  · intro h
    have hzero : (clauses.map fun clause => clause.filter fun l => l ≠ 0) = clauses := by
      rw [List.map_congr_left (g := id), List.map_id]
      intro clause hmem
      refine List.filter_eq_self.mpr fun l hl => decide_eq_true ?_
      rintro rfl
      exact (h clause hmem).2 hl
    rw [readBack, hzero]
    exact List.filter_eq_self.mpr fun clause hmem => decide_eq_true (h clause hmem).1

theorem parseCnf_written {content : String} (h : writeCnf limit nVars clauses = .ok content) :
    parseCnf limit content = .ok (nVars, readBack clauses) := by
  obtain ⟨hn, hfits, htext⟩ := writeCnf_ok h
  have hplain : '\r' ∉ content.toList := by
    rw [htext]
    intro hm
    rcases List.mem_append.mp hm with hm | hm
    · exact notMem_headerLine (by decide) (by decide) hm
    · rcases List.mem_cons.mp hm with hm | hm
      · exact absurd hm (by decide)
      · obtain ⟨clause, -, hm⟩ := List.mem_flatMap.mp hm
        rcases List.mem_append.mp hm with hm | hm
        · exact notMem_clauseLine (by decide) (by decide) clause hm
        · exact absurd (List.mem_singleton.mp hm) (by decide)
  rw [parseCnf, universalNewlines_eq hplain, htext,
    getlines_line (notMem_headerLine (by decide) (by decide)), getlines_clauses,
    List.foldlM_cons, parseCnfLine_header hn]
  exact parse_clauses hfits _

/-- A file that has been written is read as what was written, without the zeros and the clauses
that are then empty: an empty clause, which has no model, comes back as no clause at all. -/
theorem parseCnf_writeCnf {content : String} (h : writeCnf limit nVars clauses = .ok content) :
    parseCnf limit content = .ok (nVars, readBack clauses) ∧
      (parseCnf limit content = .ok (nVars, clauses) ↔
        ∀ clause ∈ clauses, clause ≠ [] ∧ 0 ∉ clause) := by
  have hread := parseCnf_written h
  refine ⟨hread, ?_⟩
  rw [hread, Except.ok.injEq, Prod.mk.injEq, ← readBack_eq_iff]
  exact and_iff_right rfl

/-- An empty clause and a zero. -/
theorem readBack_lossy :
    parseCnf 0 "p cnf 2 3\n1 -2 0\n 0\n2 0 -1 0\n" = .ok (2, [[1, -2], [2, -1]]) :=
  have h : writeCnf 0 2 [[1, -2], [], [2, 0, -1]] =
      .ok "p cnf 2 3\n1 -2 0\n 0\n2 0 -1 0\n" := by decide
  (parseCnf_writeCnf h).1

end

end Kompyle
