import Kompyle.BcFile
import Mathlib.Algebra.Group.Nat.Defs

namespace Kompyle

/-- Python's `str` of an int. -/
def str (l : Int) : String := toString l

theorem str_eq (l : Int) : str l = if 0 ≤ l then l.toNat.repr else "-" ++ (-l).toNat.repr :=
  Int.repr_eq_if

theorem str_natCast (v : Nat) : str v = v.repr := by
  rw [str_eq, if_pos (Int.natCast_nonneg v), Int.toNat_natCast]

theorem toList_str_natCast (v : Nat) : (str v).toList = Nat.toDigits 10 v := by
  rw [str_natCast, Nat.toList_repr]

theorem str_injective {v w : Nat} (h : str v = str w) : v = w := by
  have hdigits := congrArg (fun s : String => Nat.ofDigitChars 10 s.toList 0) h
  simpa only [toList_str_natCast, Nat.ofDigitChars_ten_toDigits] using hdigits

theorem toList_str_of_neg {l : Int} (h : l < 0) :
    (str l).toList = '-' :: Nat.toDigits 10 l.natAbs := by
  have habs : (-l).toNat = l.natAbs := by omega
  rw [str_eq, if_neg (by omega), habs, String.toList_append, Nat.toList_repr]
  rfl

theorem toList_str_of_nonneg {l : Int} (h : 0 ≤ l) :
    (str l).toList = Nat.toDigits 10 l.natAbs := by
  rw [← Int.natAbs_of_nonneg h, toList_str_natCast, Int.natAbs_natCast]

/-- The digits of `1_000` without the underscores, each of which stands between two digits. -/
def scanDigits : Bool → List Char → Option (List Char)
  | afterDigit, [] => if afterDigit then some [] else none
  | afterDigit, c :: cs =>
    if c.isDigit then (scanDigits true cs).map (c :: ·)
    else if c = '_' && afterDigit then scanDigits false cs
    else none

def splitSign : List Char → Bool × List Char
  | '-' :: s => (true, s)
  | '+' :: s => (false, s)
  | s => (false, s)

def fromDigits (limit : Nat) (neg : Bool) (s : List Char) : Option Int :=
  match scanDigits false s with
  | none => none
  | some digits =>
    if limit ≠ 0 && limit < digits.length then none
    else
      let n := Nat.ofDigitChars 10 digits 0
      some (if neg then -(n : Int) else n)

/-- What PyLong_FromString makes of a string in base 10; if nothing, it raises a ValueError. The
interpreter can set a limit on the number of digits, where 0 is no limit. -/
def pyLongFromString (limit : Nat) (s : List Char) : Option Int :=
  let (neg, s) := splitSign ((s.dropWhile isspace).reverse.dropWhile isspace).reverse
  fromDigits limit neg s

/-- The int is within the limit. -/
def Fits (limit : Nat) (l : Int) : Prop := limit = 0 ∨ l.natAbs < 10 ^ limit

instance (limit : Nat) (l : Int) : Decidable (Fits limit l) :=
  inferInstanceAs (Decidable (limit = 0 ∨ l.natAbs < 10 ^ limit))

theorem isDigit_toDigits {n : Nat} {c : Char} (hc : c ∈ Nat.toDigits 10 n) : c.isDigit :=
  Nat.isDigit_of_mem_toDigits (by decide) (by decide) hc

theorem not_isspace_of_isDigit {c : Char} (h : c.isDigit) : isspace c = false := by
  have hrange : 48 ≤ c.toNat := by
    simp only [Char.isDigit, Bool.and_eq_true, decide_eq_true_eq] at h
    exact h.1
  have hspace : c ≠ ' ' := by
    rintro rfl
    simp at hrange
  simp only [isspace, decide_eq_false hspace, Bool.false_or, Bool.and_eq_false_iff,
    decide_eq_false_iff_not]
  omega

theorem not_isspace_str {l : Int} {c : Char} (hc : c ∈ (str l).toList) : isspace c = false := by
  by_cases h : l < 0
  · rw [toList_str_of_neg h] at hc
    rcases List.mem_cons.mp hc with rfl | hc
    · decide
    · exact not_isspace_of_isDigit (isDigit_toDigits hc)
  · rw [toList_str_of_nonneg (Int.not_lt.mp h)] at hc
    exact not_isspace_of_isDigit (isDigit_toDigits hc)

theorem scanDigits_digits {cs : List Char} (h : ∀ c ∈ cs, c.isDigit) (hne : cs ≠ []) (b : Bool) :
    scanDigits b cs = some cs := by
  induction cs generalizing b with
  | nil => exact absurd rfl hne
  | cons c cs ih =>
    obtain ⟨hc, hcs⟩ := List.forall_mem_cons.mp h
    rw [scanDigits, if_pos hc]
    cases cs with
    | nil => rfl
    | cons d cs => rw [ih hcs (List.cons_ne_nil d cs) true, Option.map_some]

/-- There is nothing to strip from a string without blanks. -/
theorem strip_eq {cs : List Char} (h : ∀ c ∈ cs, isspace c = false) :
    ((cs.dropWhile isspace).reverse.dropWhile isspace).reverse = cs := by
  have hkeep : ∀ ds : List Char, (∀ c ∈ ds, isspace c = false) → ds.dropWhile isspace = ds := by
    intro ds hds
    cases ds with
    | nil => rfl
    | cons d ds => rw [List.dropWhile_cons_of_neg (by simp [hds d List.mem_cons_self])]
  rw [hkeep cs h, hkeep cs.reverse fun c hc => h c (List.mem_reverse.mp hc), List.reverse_reverse]

theorem limit_lt_length_iff {limit : Nat} {n : Nat} :
    (limit ≠ 0 && limit < (Nat.toDigits 10 n).length) = true ↔ ¬ Fits limit n := by
  unfold Fits
  rw [Bool.and_eq_true, decide_eq_true_eq, decide_eq_true_eq, not_or, Int.natAbs_natCast]
  refine and_congr_right fun hl => ?_
  rw [← Nat.length_toDigits_le_iff (by decide) (Nat.pos_of_ne_zero hl), Nat.not_le]

theorem splitSign_digits {cs : List Char} (h : ∀ c ∈ cs, c.isDigit) :
    splitSign cs = (false, cs) := by
  unfold splitSign
  split
  next => exact absurd (h '-' List.mem_cons_self) (by decide)
  next => exact absurd (h '+' List.mem_cons_self) (by decide)
  next => rfl

theorem fromDigits_toDigits (limit : Nat) (neg : Bool) (n : Nat) :
    fromDigits limit neg (Nat.toDigits 10 n) =
      if Fits limit n then some (if neg then -(n : Int) else n) else none := by
  unfold fromDigits
  rw [scanDigits_digits (fun _ => isDigit_toDigits) Nat.toDigits_ne_nil]
  dsimp only
  rw [Nat.ofDigitChars_ten_toDigits]
  by_cases h : Fits limit n
  · rw [if_neg fun hl => limit_lt_length_iff.mp hl h, if_pos h]
  · rw [if_pos (limit_lt_length_iff.mpr h), if_neg h]

/-- Reading an int back gives the int, unless it has more digits than the limit. -/
theorem pyLongFromString_str (limit : Nat) (l : Int) :
    pyLongFromString limit (str l).toList = if Fits limit l then some l else none := by
  have hfits : Fits limit l.natAbs ↔ Fits limit l := by
    unfold Fits
    rw [Int.natAbs_natCast]
  unfold pyLongFromString
  rw [strip_eq fun c => not_isspace_str]
  by_cases hneg : l < 0
  · have hl : -(l.natAbs : Int) = l := by omega
    rw [toList_str_of_neg hneg]
    simp only [splitSign]
    rw [fromDigits_toDigits, if_pos rfl, hl]
    exact ite_congr (propext hfits) (fun _ => rfl) fun _ => rfl
  · have hl : (l.natAbs : Int) = l := by omega
    rw [toList_str_of_nonneg (Int.not_lt.mp hneg), splitSign_digits fun c => isDigit_toDigits]
    dsimp only
    rw [fromDigits_toDigits, if_neg Bool.false_ne_true, hl]

/-- `operator<<` of boost's mpz_int, on a stream that prints decimal numbers. -/
def printMpz (v : Int) : String := if v < 0 then "-" ++ v.natAbs.repr else v.natAbs.repr

theorem printMpz_eq_str (v : Int) : printMpz v = str v := by
  rw [printMpz, str_eq]
  by_cases h : v < 0
  · have habs : (-v).toNat = v.natAbs := by omega
    rw [if_pos h, if_neg (Int.not_le.mpr h), habs]
  · have habs : v.toNat = v.natAbs := by omega
    rw [if_neg h, if_pos (Int.not_lt.mp h), habs]

/-- The number is printed to a stream and read back. -/
def mpzToPyInt (limit : Nat) (v : Int) : Option Int := pyLongFromString limit (printMpz v).toList

/-- The bindings give back every count as it is, of any size, except that they raise where it has
more digits than the interpreter allows. -/
theorem mpzToPyInt_eq (limit : Nat) (v : Int) :
    (∀ w, mpzToPyInt limit v = some w ↔ w = v ∧ (limit = 0 ∨ v.natAbs < 10 ^ limit)) ∧
      (mpzToPyInt limit v = none ↔ limit ≠ 0 ∧ 10 ^ limit ≤ v.natAbs) := by
  have hread := pyLongFromString_str limit v
  rw [mpzToPyInt, printMpz_eq_str, hread]
  by_cases h : Fits limit v
  · rw [if_pos h]
    refine ⟨fun w => ?_, ?_⟩
    · rw [Option.some.injEq, eq_comm]
      exact (and_iff_left h).symm
    · refine iff_of_false (by simp) fun ⟨hl, hle⟩ => ?_
      exact h.elim hl (Nat.not_lt.mpr hle)
  · rw [if_neg h]
    refine ⟨fun w => iff_of_false (by simp) fun hw => h hw.2, iff_of_true rfl ?_⟩
    rw [Fits, not_or, Nat.not_lt] at h
    exact h

end Kompyle
