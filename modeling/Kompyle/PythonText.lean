import Kompyle.BcRoundTrip
import Mathlib.Data.List.TakeWhile

namespace Kompyle

/-- The characters at which Python's `split` and `strip` cut. -/
def pySpace (c : Char) : Bool :=
  isspace c || (28 ≤ c.toNat && c.toNat ≤ 31) || c.toNat = 0x85 || c.toNat = 0xA0 ||
    c.toNat = 0x1680 || (0x2000 ≤ c.toNat && c.toNat ≤ 0x200A) || c.toNat = 0x2028 ||
    c.toNat = 0x2029 || c.toNat = 0x202F || c.toNat = 0x205F || c.toNat = 0x3000

def pyStrip (s : List Char) : List Char :=
  ((s.dropWhile pySpace).reverse.dropWhile pySpace).reverse

def pySplit (s : List Char) : List (List Char) := (s.splitOnP pySpace).filter fun w => w ≠ []

/-- A file opened as text gives every end of a line as a newline. -/
def universalNewlines : List Char → List Char
  | [] => []
  | '\r' :: '\n' :: cs => '\n' :: universalNewlines cs
  | '\r' :: cs => '\n' :: universalNewlines cs
  | c :: cs => c :: universalNewlines cs

inductive PyError
  | indexError
  | valueError
  | keyError
  | assertionError
  deriving DecidableEq, Repr

/-- A word that `split` gives back as it is. -/
def IsWord (w : List Char) : Prop := w ≠ [] ∧ ∀ c ∈ w, pySpace c = false

theorem isWord_iff {w : List Char} :
    IsWord w ↔ w ≠ [] ∧ (w.all fun c => !pySpace c) = true := by
  rw [IsWord, List.all_eq_true]
  simp only [Bool.not_eq_true']

/-- The words with one blank between them. -/
def spaced (w : List Char) (ws : List (List Char)) : List Char := w ++ ws.flatMap (' ' :: ·)

section

variable {w : List Char} {ws : List (List Char)}

theorem pySplit_spaced (hw : IsWord w) (hws : ∀ v ∈ ws, IsWord v) :
    pySplit (spaced w ws) = w :: ws := by
  induction ws generalizing w with
  | nil =>
    rw [spaced, List.flatMap_nil, List.append_nil, pySplit, List.splitOnP_eq_singleton hw.2]
    simp [hw.1]
  | cons v ws ih =>
    obtain ⟨hv, hws⟩ := List.forall_mem_cons.mp hws
    have hrest := ih hv hws
    rw [pySplit, spaced] at hrest ⊢
    rw [List.flatMap_cons, List.cons_append,
      List.splitOnP_append_cons_of_forall_mem hw.2 ' ' (by decide),
      List.filter_cons_of_pos (by simpa using hw.1), hrest]

theorem dropWhile_word (hw : IsWord w) (rest : List Char) :
    (w ++ rest).dropWhile pySpace = w ++ rest := by
  obtain ⟨c, cs, rfl⟩ := List.exists_cons_of_ne_nil hw.1
  rw [List.cons_append, List.dropWhile_cons_of_neg]
  simp [hw.2 c List.mem_cons_self]

theorem pyStrip_spaced (hw : IsWord w) (hws : ∀ v ∈ ws, IsWord v) :
    pyStrip (spaced w ws) = spaced w ws := by
  have hlast : ∃ before v, IsWord v ∧ spaced w ws = before ++ v := by
    rcases List.eq_nil_or_concat ws with rfl | ⟨ws, v, rfl⟩
    · exact ⟨[], w, hw, by simp [spaced]⟩
    · exact ⟨spaced w ws ++ [' '], v, hws v (by simp), by simp [spaced]⟩
  obtain ⟨before, v, hv, heq⟩ := hlast
  have hrev : IsWord v.reverse :=
    ⟨by simpa using hv.1, fun c hc => hv.2 c (List.mem_reverse.mp hc)⟩
  unfold pyStrip
  have hfirst : (spaced w ws).dropWhile pySpace = spaced w ws := dropWhile_word hw _
  rw [hfirst, heq, List.reverse_append, dropWhile_word hrev, List.reverse_append,
    List.reverse_reverse, List.reverse_reverse]

theorem notMem_spaced {c : Char} (hc : pySpace c = true) (hblank : c ≠ ' ') (hw : IsWord w)
    (hws : ∀ v ∈ ws, IsWord v) : c ∉ spaced w ws := by
  have hnone : ∀ {v : List Char}, IsWord v → c ∉ v := by
    intro v hv hm
    rw [hv.2 c hm] at hc
    cases hc
  intro hm
  rcases List.mem_append.mp hm with hm | hm
  · exact hnone hw hm
  · obtain ⟨v, hv, hm⟩ := List.mem_flatMap.mp hm
    rcases List.mem_cons.mp hm with hm | hm
    · exact hblank hm
    · exact hnone (hws v hv) hm

end

theorem pySplit_append {s t : List Char} {c : Char} (hc : pySpace c = true) :
    pySplit (s ++ c :: t) = pySplit s ++ pySplit t := by
  unfold pySplit
  rw [List.splitOnP_append_cons s t hc, List.filter_append]

theorem pySplit_blank_append {bs : List Char} (hbs : ∀ b ∈ bs, pySpace b = true) (s : List Char) :
    pySplit (bs ++ s) = pySplit s := by
  induction bs with
  | nil => rfl
  | cons b bs ih =>
    obtain ⟨hb, hbs⟩ := List.forall_mem_cons.mp hbs
    have hsplit : pySplit ([] ++ b :: (bs ++ s)) = pySplit [] ++ pySplit (bs ++ s) :=
      pySplit_append hb
    exact hsplit.trans (ih hbs)

theorem pySplit_append_blank {bs : List Char} (hbs : ∀ b ∈ bs, pySpace b = true) (s : List Char) :
    pySplit (s ++ bs) = pySplit s := by
  cases bs with
  | nil => rw [List.append_nil]
  | cons b bs =>
    obtain ⟨hb, hbs⟩ := List.forall_mem_cons.mp hbs
    have hrest := pySplit_blank_append hbs []
    rw [List.append_nil] at hrest
    rw [pySplit_append hb, hrest]
    exact List.append_nil _

theorem pySplit_dropWhile (s : List Char) : pySplit (s.dropWhile pySpace) = pySplit s := by
  have hblank : ∀ b ∈ s.takeWhile pySpace, pySpace b = true := fun _ => List.mem_takeWhile_imp
  rw [← pySplit_blank_append hblank, List.takeWhile_append_dropWhile]

/-- Stripping does not change the words. -/
theorem pySplit_pyStrip (s : List Char) : pySplit (pyStrip s) = pySplit s := by
  rw [← pySplit_dropWhile s]
  unfold pyStrip
  generalize s.dropWhile pySpace = t
  have hblank : ∀ b ∈ (t.reverse.takeWhile pySpace).reverse, pySpace b = true :=
    fun _ hb => List.mem_takeWhile_imp (List.mem_reverse.mp hb)
  rw [← pySplit_append_blank hblank, ← List.reverse_append, List.takeWhile_append_dropWhile,
    List.reverse_reverse]

theorem pyStrip_cons {c : Char} (hc : pySpace c = false) (cs : List Char) :
    ∃ ds, pyStrip (c :: cs) = c :: ds := by
  have hlast : ∃ ds, (cs.reverse ++ [c]).dropWhile pySpace = ds ++ [c] := by
    rw [List.dropWhile_append]
    split
    · exact ⟨[], by simp [hc]⟩
    · exact ⟨_, rfl⟩
  obtain ⟨ds, hds⟩ := hlast
  refine ⟨ds.reverse, ?_⟩
  rw [pyStrip, List.dropWhile_cons_of_neg (by simp [hc]), List.reverse_cons, hds,
    List.reverse_append]
  rfl

theorem splitOnP_congr {α : Type*} {p q : α → Bool} {xs : List α} (h : ∀ x ∈ xs, p x = q x) :
    xs.splitOnP p = xs.splitOnP q := by
  induction xs with
  | nil => rfl
  | cons x xs ih =>
    obtain ⟨hx, hxs⟩ := List.forall_mem_cons.mp h
    rw [List.splitOnP_cons_eq_if_modifyHead, List.splitOnP_cons_eq_if_modifyHead, hx, ih hxs]

/-- ASCII without carriage returns and separators: on such a text C's and Python's notion of a
blank and of a line are the same. -/
def PlainText (s : List Char) : Prop :=
  ∀ c ∈ s, c.toNat < 128 ∧ (c.toNat < 28 ∨ 32 ≤ c.toNat) ∧ c ≠ '\r'

theorem plainText_iff {s : List Char} : PlainText s ↔
    (s.all fun c => c.toNat < 128 && (c.toNat < 28 || 32 ≤ c.toNat) && c ≠ '\r') = true := by
  rw [PlainText, List.all_eq_true]
  simp only [Bool.and_eq_true, Bool.or_eq_true, decide_eq_true_eq, and_assoc]

theorem PlainText.pySpace_eq {s : List Char} (h : PlainText s) {c : Char} (hc : c ∈ s) :
    pySpace c = isspace c := by
  obtain ⟨hascii, hsep, -⟩ := h c hc
  rw [Bool.eq_iff_iff]
  simp only [pySpace, Bool.or_eq_true, Bool.and_eq_true, decide_eq_true_eq]
  constructor
  · intro hspace
    by_contra hs
    simp only [hs, false_or] at hspace
    omega
  · intro hs
    simp [hs]

theorem PlainText.pySplit_eq {s : List Char} (h : PlainText s) :
    (pySplit s).map String.ofList = tokensOf s := by
  rw [pySplit, tokensOf, splitOnP_congr fun c => h.pySpace_eq]

theorem mem_getlines {s line : List Char} (hl : line ∈ getlines s) {c : Char} (hc : c ∈ line) :
    c ∈ s := by
  induction s generalizing line with
  | nil => cases hl
  | cons d cs ih =>
    unfold getlines at hl
    split at hl
    · rcases List.mem_cons.mp hl with rfl | hl
      · cases hc
      · exact List.mem_cons_of_mem d (ih hl hc)
    · split at hl
      next =>
        rw [List.mem_singleton.mp hl] at hc
        rw [List.mem_singleton.mp hc]
        exact List.mem_cons_self
      next first rest heq =>
        rw [heq] at ih
        rcases List.mem_cons.mp hl with rfl | hl
        · rcases List.mem_cons.mp hc with rfl | hc
          · exact List.mem_cons_self
          · exact List.mem_cons_of_mem d (ih List.mem_cons_self hc)
        · exact List.mem_cons_of_mem d (ih (List.mem_cons_of_mem first hl) hc)

theorem universalNewlines_eq {s : List Char} (h : '\r' ∉ s) : universalNewlines s = s := by
  induction s with
  | nil => rfl
  | cons c cs ih =>
    have hc : c ≠ '\r' := fun he => h (he ▸ List.mem_cons_self)
    have hcs : '\r' ∉ cs := fun hm => h (List.mem_cons_of_mem c hm)
    unfold universalNewlines
    split
    next => simp_all
    next => simp_all
    next => simp_all
    next heq =>
      cases heq
      rw [ih hcs]

end Kompyle
