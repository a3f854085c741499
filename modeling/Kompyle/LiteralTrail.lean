import Kompyle.LiteralCover

namespace Kompyle

open SemiringProgram

/-- Sums, products and copies, and divisions by another value that is a literal. -/
def DividesByLiterals (K : Klay) (s : Regs FCircuit) : FieldOp → Prop
  | .ring _ => True
  | .subAssign _ _ => False
  | .divAssign r a => r ≠ a ∧ ∃ l, s a = some (FGenCircuit.litField K l)

/-- The values that multiplying and dividing by literals make of `a`, with the literals that are
in: only literals of variables that `a` does not have go in, one of a variable at a time, and
only literals that are in go out. -/
inductive Trail (K : Klay) (a : FCircuit) : FCircuit → Finset Int → Prop
  | start : Trail K a a ∅
  | mul {x : FCircuit} {ins : Finset Int} {l : Int} : Trail K a x ins →
      (∀ ix ∈ a.lits, ix / 2 ≠ K.internalVal l / 2) → (∀ m ∈ ins, m.natAbs ≠ l.natAbs) →
      Trail K a (x.mulAssign K (FGenCircuit.litField K l)) (insert l ins)
  | div {x : FCircuit} {ins : Finset Int} {l : Int} : Trail K a x ins → l ∈ ins →
      Trail K a (x.divAssign K (FGenCircuit.litField K l)) (ins.erase l)

def AllHold (K : Klay) (ins : Finset Int) (σ : Nat → Bool) : Bool :=
  decide (∀ l ∈ ins, σ (K.internalVal l) = true)

section

variable {K : Klay} {alloc : Node → Prop}

/-- The invariant of a value: what it denotes depends on the literals of its set only. -/
structure Determined (alloc : Node → Prop) (x : FCircuit) : Prop where
  node : alloc x.node
  denote : ∀ σ τ, Complementary σ → Complementary τ → (∀ ix ∈ x.lits, σ ix = τ ix) →
    x.node.denote σ = x.node.denote τ

theorem complementary_setTrue_singleton (c : Nat) {σ : Nat → Bool} (hσ : Complementary σ) :
    Complementary (setTrue {c} σ) := by
  apply setTrue_complementary
  · intro ix hix
    rw [Finset.mem_singleton] at hix ⊢
    subst hix
    exact xor_one_ne ix
  · exact hσ

theorem setTrue_self (c : Nat) (σ : Nat → Bool) : setTrue {c} σ c = true := by simp [setTrue]

theorem notMem_literal {c ix : Nat} (h : ix / 2 ≠ c / 2) :
    ix ∉ ({c} : Finset Nat) ∧ ix ^^^ 1 ∉ ({c} : Finset Nat) := by
  rw [Finset.mem_singleton, Finset.mem_singleton]
  exact ⟨fun he => h (by rw [he]), fun he => h (by rw [← he, xor_one_div])⟩

theorem setTrue_other {c ix : Nat} (h : ix / 2 ≠ c / 2) (σ : Nat → Bool) :
    setTrue {c} σ ix = σ ix := by
  obtain ⟨hpos, hneg⟩ := notMem_literal h
  unfold setTrue
  rw [if_neg hpos, if_neg hneg]

theorem denote_divAssign (hK : K.Allocates alloc) (hden : K.Denotes) {x : FCircuit}
    (hx : alloc x.node) (y : FCircuit) {σ : Nat → Bool} (hσ : Complementary σ) :
    (x.divAssign K y).node.denote σ = x.node.denote (setTrue y.lits σ) :=
  substituteTrue_rel hK.addressed (substitutes_read (hden σ hσ)) hx

theorem Determined.pair {x y : FCircuit} (hx : Determined alloc x) (hy : Determined alloc y)
    {n : Node} (hn : alloc n) {f : Bool → Bool → Bool} {v : Int}
    (hf : ∀ σ, Complementary σ → n.denote σ = f (x.node.denote σ) (y.node.denote σ)) :
    Determined alloc ⟨n, v, x.lits ∪ y.lits⟩ := by
  refine ⟨hn, fun σ τ hσ hτ h => ?_⟩
  have hxs := hx.denote σ τ hσ hτ fun ix hix => h ix (Finset.mem_union_left _ hix)
  have hys := hy.denote σ τ hσ hτ fun ix hix => h ix (Finset.mem_union_right _ hix)
  show n.denote σ = n.denote τ
  rw [hf σ hσ, hf τ hτ, hxs, hys]

theorem denote_sum (hden : K.Denotes) (n m : Node) {σ : Nat → Bool} (hσ : Complementary σ) :
    (K.orNode [n, m]).denote σ = (n.denote σ || m.denote σ) := by
  simp [denote_or (hden σ hσ)]

theorem denote_product (hden : K.Denotes) (n m : Node) {σ : Nat → Bool} (hσ : Complementary σ) :
    (K.andNode [n, m]).denote σ = (n.denote σ && m.denote σ) := by
  simp [denote_and (hden σ hσ)]

theorem Determined.add (hK : K.Allocates alloc) (hden : K.Denotes) {x y : FCircuit}
    (hx : Determined alloc x) (hy : Determined alloc y) : Determined alloc (x.add K y) :=
  hx.pair hy (hK.add hx.node hy.node) fun _ hσ => denote_sum hden _ _ hσ

theorem Determined.mul (hK : K.Allocates alloc) (hden : K.Denotes) {x y : FCircuit}
    (hx : Determined alloc x) (hy : Determined alloc y) :
    Determined alloc (x.mulAssign K y) :=
  hx.pair hy (hK.mulAssign hx.node hy.node) fun _ hσ => denote_product hden _ _ hσ

theorem Determined.div (hK : K.Allocates alloc) (hden : K.Denotes) {x : FCircuit}
    (hx : Determined alloc x) (l : Int) :
    Determined alloc (x.divAssign K (FGenCircuit.litField K l)) := by
  refine ⟨hK.divAssign hx.node _, fun σ τ hσ hτ h => ?_⟩
  rw [denote_divAssign hK hden hx.node _ hσ, denote_divAssign hK hden hx.node _ hτ]
  apply hx.denote _ _ (complementary_setTrue_singleton _ hσ) (complementary_setTrue_singleton _ hτ)
  intro ix hix
  unfold setTrue
  by_cases hpos : ix ∈ ({K.internalVal l} : Finset Nat)
  · rw [if_pos hpos, if_pos hpos]
  · by_cases hneg : ix ^^^ 1 ∈ ({K.internalVal l} : Finset Nat)
    · rw [if_neg hpos, if_neg hpos, if_pos hneg, if_pos hneg]
    · rw [if_neg hpos, if_neg hpos, if_neg hneg, if_neg hneg]
      exact h ix (Finset.mem_filter.mpr ⟨hix, hpos, hneg⟩)

theorem determined_zero (hK : K.Allocates alloc) (hden : K.Denotes) :
    Determined alloc (FGenCircuit.zero K) := by
  refine ⟨hK.falseNode, fun σ τ hσ hτ _ => ?_⟩
  exact (denote_falseNode (hden σ hσ)).trans (denote_falseNode (hden τ hτ)).symm

theorem determined_one (hK : K.Allocates alloc) (hden : K.Denotes) :
    Determined alloc (FGenCircuit.one K) := by
  refine ⟨hK.trueNode, fun σ τ hσ hτ _ => ?_⟩
  exact (denote_trueNode (hden σ hσ)).trans (denote_trueNode (hden τ hτ)).symm

theorem determined_literal (hK : K.Allocates alloc) (hden : K.Denotes) (l : Int) :
    Determined alloc (FGenCircuit.litField K l) := by
  refine ⟨hK.literalNode l, fun σ τ hσ hτ h => ?_⟩
  have hl : σ (K.internalVal l) = τ (K.internalVal l) := h _ (Finset.mem_singleton_self _)
  show (K.literalNode l).denote σ = (K.literalNode l).denote τ
  rw [denote_literal (hden σ hσ), denote_literal (hden τ hτ), hl]

theorem ring_keeps_determined (hK : K.Allocates alloc) (hden : K.Denotes) :
    Simulates (FGenCircuit.impl K fun l => some (FGenCircuit.litField K l)) forget
      fun x (_ : Unit) => Determined alloc x := by
  apply Simulates.of_plain impl_plain forget_plain (determined_zero hK hden)
    (determined_one hK hden)
  · intro l x hx
    obtain rfl := Option.some.inj hx
    exact ⟨(), rfl, determined_literal hK hden l⟩
  · exact fun _ _ _ _ hx hy => hx.add hK hden hy
  · exact fun _ _ _ _ hx hy => hx.mul hK hden hy

theorem Reaches.determined (hK : K.Allocates alloc) (hden : K.Denotes) {s : Regs FCircuit}
    (h : Reaches K (DividesByLiterals K) s) : AllRegs (Determined alloc) s := by
  apply h.allRegs (ring_keeps_determined hK hden)
  · intro s r a x y hop
    cases hop
  · intro s r a x y hop _ hy hx _
    obtain ⟨-, l, hl⟩ := hop
    obtain rfl : y = FGenCircuit.litField K l := Option.some.inj (hy.symm.trans hl)
    exact hx.div hK hden l

/-- The invariant of a trail. -/
structure OnTrail (K : Klay) (alloc : Node → Prop) (a x : FCircuit) (ins : Finset Int) : Prop where
  node : alloc x.node
  fresh : ∀ l ∈ ins, ∀ ix ∈ a.lits, ix / 2 ≠ K.internalVal l / 2
  distinct : ∀ l ∈ ins, ∀ m ∈ ins, l.natAbs = m.natAbs → l = m
  denote : ∀ σ, Complementary σ → x.node.denote σ = (a.node.denote σ && AllHold K ins σ)
  lits : x.lits = a.lits ∪ ins.image K.internalVal
  val : x.val = a.val

theorem allHold_insert (l : Int) (ins : Finset Int) (σ : Nat → Bool) :
    AllHold K (insert l ins) σ = (σ (K.internalVal l) && AllHold K ins σ) := by
  rw [Bool.eq_iff_iff]
  simp [AllHold]

theorem OnTrail.mul (hK : K.Allocates alloc) (hden : K.Denotes) {a x : FCircuit}
    {ins : Finset Int} {l : Int} (h : OnTrail K alloc a x ins)
    (hfresh : ∀ ix ∈ a.lits, ix / 2 ≠ K.internalVal l / 2)
    (hout : ∀ m ∈ ins, m.natAbs ≠ l.natAbs) :
    OnTrail K alloc a (x.mulAssign K (FGenCircuit.litField K l)) (insert l ins) where
  node := hK.mulAssign h.node (hK.literalNode l)
  fresh := (Finset.forall_mem_insert _ _ _).mpr ⟨hfresh, h.fresh⟩
  distinct := by
    intro m hm k hk heq
    rcases Finset.mem_insert.mp hm with hml | hm'
    · rcases Finset.mem_insert.mp hk with hkl | hk'
      · rw [hml, hkl]
      · exact absurd (hml ▸ heq.symm) (hout k hk')
    · rcases Finset.mem_insert.mp hk with hkl | hk'
      · exact absurd (hkl ▸ heq) (hout m hm')
      · exact h.distinct m hm' k hk' heq
  denote σ hσ := by
    have hl : (FGenCircuit.litField K l).node.denote σ = σ (K.internalVal l) :=
      denote_literal (hden σ hσ) l
    have hand := denote_product hden x.node (FGenCircuit.litField K l).node hσ
    rw [h.denote σ hσ, hl] at hand
    rw [allHold_insert]
    refine hand.trans ?_
    rw [Bool.and_assoc, Bool.and_comm (AllHold K ins σ)]
  lits := by
    show x.lits ∪ {K.internalVal l} = _
    rw [h.lits, Finset.image_insert, Finset.union_assoc, Finset.union_comm (ins.image _)]
    rfl
  val := by
    show x.val * 1 = a.val
    rw [Int.mul_one, h.val]

/-- The literals that are in and not divided out have other variables. -/
theorem OnTrail.other (hnum : ∀ l m, K.internalVal l / 2 = K.internalVal m / 2 ↔
      l.natAbs = m.natAbs) {a x : FCircuit} {ins : Finset Int} {l m : Int}
    (h : OnTrail K alloc a x ins) (hl : l ∈ ins) (hm : m ∈ ins.erase l) :
    K.internalVal m / 2 ≠ K.internalVal l / 2 := by
  obtain ⟨hne, hm⟩ := Finset.mem_erase.mp hm
  intro heq
  exact hne (h.distinct m hm l hl ((hnum m l).mp heq))

/-- Setting a literal that is in to true takes it out of the conjunction. -/
theorem OnTrail.allHold_setTrue (hnum : ∀ l m, K.internalVal l / 2 = K.internalVal m / 2 ↔
      l.natAbs = m.natAbs) {a x : FCircuit} {ins : Finset Int} {l : Int}
    (h : OnTrail K alloc a x ins) (hl : l ∈ ins) (σ : Nat → Bool) :
    AllHold K ins (setTrue {K.internalVal l} σ) = AllHold K (ins.erase l) σ := by
  have hrest : AllHold K (ins.erase l) (setTrue {K.internalVal l} σ) =
      AllHold K (ins.erase l) σ := by
    unfold AllHold
    congr 1
    rw [eq_iff_iff]
    refine forall₂_congr fun m hm => ?_
    rw [setTrue_other (h.other hnum hl hm)]
  calc AllHold K ins (setTrue {K.internalVal l} σ)
      = AllHold K (insert l (ins.erase l)) (setTrue {K.internalVal l} σ) := by
        rw [Finset.insert_erase hl]
    _ = AllHold K (ins.erase l) (setTrue {K.internalVal l} σ) := by
        rw [allHold_insert, setTrue_self, Bool.true_and]
    _ = AllHold K (ins.erase l) σ := hrest

theorem OnTrail.div (hK : K.Allocates alloc) (hden : K.Denotes)
    (hnum : ∀ l m, K.internalVal l / 2 = K.internalVal m / 2 ↔ l.natAbs = m.natAbs)
    {a x : FCircuit} (ha : Determined alloc a) {ins : Finset Int} {l : Int}
    (h : OnTrail K alloc a x ins) (hl : l ∈ ins) :
    OnTrail K alloc a (x.divAssign K (FGenCircuit.litField K l)) (ins.erase l) where
  node := hK.divAssign h.node _
  fresh m hm := h.fresh m (Finset.mem_of_mem_erase hm)
  distinct m hm k hk :=
    h.distinct m (Finset.mem_of_mem_erase hm) k (Finset.mem_of_mem_erase hk)
  denote σ hσ := by
    have hset := complementary_setTrue_singleton (K.internalVal l) hσ
    have hsame : a.node.denote (setTrue {K.internalVal l} σ) = a.node.denote σ :=
      ha.denote _ _ hset hσ fun ix hix => setTrue_other (h.fresh l hl ix hix) σ
    rw [denote_divAssign hK hden h.node _ hσ, ← hsame, ← h.allHold_setTrue hnum hl]
    exact h.denote _ hset
  lits := by
    show x.lits.filter (fun ix => ix ∉ ({K.internalVal l} : Finset Nat) ∧
      ix ^^^ 1 ∉ ({K.internalVal l} : Finset Nat)) = _
    rw [h.lits]
    ext ix
    simp only [Finset.mem_filter, Finset.mem_union, Finset.mem_image]
    constructor
    · rintro ⟨ha | ⟨m, hm, rfl⟩, hpos, -⟩
      · exact Or.inl ha
      · have hne : m ≠ l := fun he => hpos (by rw [he, Finset.mem_singleton])
        exact Or.inr ⟨m, Finset.mem_erase.mpr ⟨hne, hm⟩, rfl⟩
    · rintro (ha | ⟨m, hm, rfl⟩)
      · exact ⟨Or.inl ha, notMem_literal (h.fresh l hl ix ha)⟩
      · exact ⟨Or.inr ⟨m, Finset.mem_of_mem_erase hm, rfl⟩, notMem_literal (h.other hnum hl hm)⟩
  val := (Int.tdiv_one x.val).trans h.val

theorem Trail.onTrail (hK : K.Allocates alloc) (hden : K.Denotes)
    (hnum : ∀ l m, K.internalVal l / 2 = K.internalVal m / 2 ↔ l.natAbs = m.natAbs)
    {a x : FCircuit} (ha : Determined alloc a) {ins : Finset Int} (h : Trail K a x ins) :
    OnTrail K alloc a x ins := by
  induction h with
  | start => exact ⟨ha.node, by simp, by simp, by simp [AllHold], by simp, rfl⟩
  | mul _ hfresh hout ih => exact ih.mul hK hden hfresh hout
  | div _ hl ih => exact ih.div hK hden hnum ha hl

/-- Multiplying and dividing by literals is a trail: a value is always what it was at the start
with exactly the literals in that have not been taken out. -/
theorem trail_faithful (hK : K.Allocates alloc) (hden : K.Denotes)
    (hnum : ∀ l m, K.internalVal l / 2 = K.internalVal m / 2 ↔ l.natAbs = m.natAbs)
    {s : Regs FCircuit} (hs : Reaches K (DividesByLiterals K) s) {r : Nat} {a : FCircuit}
    (ha : s r = some a) {x : FCircuit} {ins : Finset Int} (h : Trail K a x ins) :
    (∀ σ, Complementary σ → x.node.denote σ = (a.node.denote σ && AllHold K ins σ)) ∧
    x.lits = a.lits ∪ ins.image K.internalVal ∧ x.val = a.val ∧
    (ins = ∅ → (∀ σ, Complementary σ → x.node.denote σ = a.node.denote σ) ∧ x.lits = a.lits ∧
      x.val = a.val) := by
  have htrail := h.onTrail hK hden hnum (hs.determined hK hden r a ha)
  refine ⟨htrail.denote, htrail.lits, htrail.val, ?_⟩
  rintro rfl
  refine ⟨fun σ hσ => ?_, ?_, htrail.val⟩
  · simpa [AllHold] using htrail.denote σ hσ
  · simpa using htrail.lits

end

def factor (l : Int) : FCircuit := FGenCircuit.litField Klay.reference l

/-- Literals 2 and -3 go in, 2 goes out, and its variable comes in again as -2. -/
def reentered : FCircuit :=
  ((((factor 1).mulAssign Klay.reference (factor 2)).mulAssign Klay.reference
    (factor (-3))).divAssign Klay.reference (factor 2)).mulAssign Klay.reference (factor (-2))

theorem reentered_trail : Trail Klay.reference (factor 1) reentered {-3, -2} := by
  have h₁ : Trail Klay.reference (factor 1) _ (insert 2 ∅) :=
    Trail.start.mul (by decide) (by decide)
  have h₂ : Trail Klay.reference (factor 1) _ (insert (-3) (insert 2 ∅)) :=
    h₁.mul (by decide) (by decide)
  have hmem : (2 : Int) ∈ insert (-3) (insert 2 (∅ : Finset Int)) := by decide
  have h₄ := (h₂.div hmem).mul (l := -2) (by decide) (by decide)
  have hins : insert (-2) ((insert (-3) (insert 2 (∅ : Finset Int))).erase 2) = {-3, -2} := by
    decide
  rw [← hins]
  exact h₄

theorem reentered_faithful :
    (∀ σ, Complementary σ → reentered.node.denote σ =
      ((factor 1).node.denote σ && AllHold Klay.reference {-3, -2} σ)) ∧
    reentered.lits = (factor 1).lits ∪ ({-3, -2} : Finset Int).image Klay.reference.internalVal ∧
    reentered.val = (factor 1).val := by
  have hs : Reaches Klay.reference (DividesByLiterals Klay.reference) oneLiteral :=
    .step .empty (show DividesByLiterals _ _ (.ring (.lit 0 1)) from trivial) rfl
  have h := trail_faithful Klay.reference_allocates reference_complementary
    Klay.reference_simplifies.internalVal hs (show oneLiteral 0 = some (factor 1) from rfl)
    reentered_trail
  exact ⟨h.1, h.2.1, h.2.2.1⟩

end Kompyle
