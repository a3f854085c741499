import Kompyle.CountRules
import Kompyle.SubstituteStructure

namespace Kompyle

open ListLoops WeightedCount

theorem leafHolds_complementary (τ : Nat → Bool) : Complementary (Klay.leafHolds τ) := by
  intro ix
  unfold Klay.leafHolds
  rw [xor_one_div]
  have hbit : decide ((ix ^^^ 1) % 2 = 0) = !decide (ix % 2 = 0) := by
    have hdiv := xor_one_div ix
    have hne := xor_one_ne ix
    by_cases h : ix % 2 = 0
    · have h' : (ix ^^^ 1) % 2 ≠ 0 := by omega
      rw [decide_eq_true h, decide_eq_false h']
      rfl
    · have h' : (ix ^^^ 1) % 2 = 0 := by omega
      rw [decide_eq_false h, decide_eq_true h']
      rfl
  rw [hbit]
  cases τ (ix / 2) <;> cases decide (ix % 2 = 0) <;> rfl

theorem eq_leafHolds {σ : Nat → Bool} (hσ : Complementary σ) :
    σ = Klay.leafHolds fun v => σ (2 * v) := by
  funext ix
  unfold Klay.leafHolds
  by_cases h : ix % 2 = 0
  · have hix : 2 * (ix / 2) = ix := by omega
    simp [h, hix]
  · have hix : (2 * (ix / 2)) ^^^ 1 = ix := by
      have hdiv := xor_one_div (2 * (ix / 2))
      have hne := xor_one_ne (2 * (ix / 2))
      omega
    have hneg := hσ (2 * (ix / 2))
    rw [hix] at hneg
    simp [h, hneg]

/-- The weights of the leaves, by variable and value. -/
def leafWeight {R : Type*} (w : Nat → R) (v : Nat) (b : Bool) : R :=
  w (2 * v + if b then 0 else 1)

theorem leafWeight_leaf {R : Type*} (w : Nat → R) (ix : Nat) :
    leafWeight w (ix / 2) (decide (ix % 2 = 0)) = w ix := by
  unfold leafWeight
  congr 1
  by_cases h : ix % 2 = 0
  · simp only [h, decide_true, if_true]
    omega
  · simp only [h, decide_false, Bool.false_eq_true, if_false]
    omega

namespace Node

/-- No assignment of the literals makes both true. -/
def Exclusive (c d : Node) : Prop :=
  ∀ σ, Complementary σ → c.denote σ = true → d.denote σ = false

def Deterministic (n : Node) : Prop :=
  ∀ m : Node, m.Below n → m.type = .Or → m.children.Pairwise Exclusive

theorem Exclusive.symm {c d : Node} (h : c.Exclusive d) : d.Exclusive c := by
  intro σ hσ hd
  by_contra hc
  have := h σ hσ (by simpa using hc)
  rw [hd] at this
  cases this

theorem deterministic_leaf {n : Node} (ha : n.type ≠ .And) (ho : n.type ≠ .Or) :
    n.Deterministic :=
  eachBelow_leaf (Q := fun m => m.type = .Or → m.children.Pairwise Exclusive)
    (fun h => absurd h ho) ha ho

theorem deterministic_constant {n : Node} (h : n.isTrue = true ∨ n.isFalse = true) :
    n.Deterministic := deterministic_leaf (type_of_constant h).1 (type_of_constant h).2

theorem Deterministic.child {n c : Node} (h : n.Deterministic) (hc : c.IsChild n) :
    c.Deterministic := fun m hm => h m (hm.tail hc)

theorem deterministic_andOf {xs : List Node} {n : Node} (h : Klay.AndOf xs n)
    (hxs : ∀ x ∈ xs, x.Deterministic) : n.Deterministic :=
  Klay.eachBelow_andOf (Q := fun m => m.type = .Or → m.children.Pairwise Exclusive) h hxs
    fun _ ho _ h => absurd h ho

theorem deterministic_orOf {xs : List Node} {n : Node} (h : Klay.OrOf xs n)
    (hxs : ∀ x ∈ xs, x.Deterministic) (hexcl : xs.Pairwise Exclusive) : n.Deterministic :=
  Klay.eachBelow_orOf (Q := fun m => m.type = .Or → m.children.Pairwise Exclusive) h hxs
    fun _ _ hsub ho => Klay.pairwise_of_subperm (fun _ _ hcd => hcd.symm) (hsub ho)
      (hexcl.sublist List.filter_sublist)

/-- A deterministic, decomposable and smooth circuit. -/
structure Sdnnf (n : Node) : Prop where
  structured : n.Structured
  deterministic : n.Deterministic

theorem Sdnnf.child {n c : Node} (h : n.Sdnnf) (hc : c.IsChild n) : c.Sdnnf :=
  ⟨h.structured.child hc, h.deterministic.child hc⟩

theorem denote_and {n : Node} (σ : Nat → Bool) (h : n.type = .And) :
    n.denote σ = n.children.all fun c => c.denote σ := by
  rw [denote, read_and _ h]
  exact List.all_map

theorem denote_or {n : Node} (σ : Nat → Bool) (h : n.type = .Or) :
    n.denote σ = n.children.any fun c => c.denote σ := by
  rw [denote, read_or _ h]
  exact List.any_map

def indicator (R : Type*) [CommSemiring R] (b : Bool) : R := if b then 1 else 0

section

variable {R : Type*} [CommSemiring R]

theorem prod_indicator (bs : List Bool) :
    (bs.map (indicator R)).prod = indicator R (bs.all id) := by
  induction bs with
  | nil => rfl
  | cons b bs ih =>
    rw [List.map_cons, List.prod_cons, ih, List.all_cons]
    cases b <;> simp [indicator]

theorem sum_indicator {bs : List Bool} (h : bs.Pairwise fun b c => b = true → c = false) :
    (bs.map (indicator R)).sum = indicator R (bs.any id) := by
  induction bs with
  | nil => rfl
  | cons b bs ih =>
    obtain ⟨hfirst, hpair⟩ := List.pairwise_cons.mp h
    rw [List.map_cons, List.sum_cons, ih hpair, List.any_cons]
    cases b with
    | false => simp [indicator]
    | true =>
      have hnone : bs.any id = false := List.any_eq_false.mpr fun c hc => by
        simp [hfirst c hc rfl]
      simp [indicator, hnone]

/-- Under the indicators of an assignment the value of a deterministic circuit is one or zero. -/
theorem Deterministic.value_indicator {σ : Nat → Bool} (hσ : Complementary σ) {n : Node}
    (hn : n.Deterministic) :
    n.value (fun ix => indicator R (σ ix)) = indicator R (n.denote σ) := by
  induction n with
  | mk addr type ix children ih =>
    have hchild : type = .And ∨ type = .Or →
        children.map (fun c => c.value fun ix => indicator R (σ ix)) =
          (children.map (denote σ)).map (indicator R) := by
      intro ht
      rw [List.map_map]
      exact List.map_congr_left fun c hc => ih c hc (hn.child ⟨ht, hc⟩)
    cases type with
    | True => simp [value, denote, read, sumProduct, boolean, indicator]
    | False => simp [value, denote, read, sumProduct, boolean, indicator]
    | Leaf => simp [value, denote, read, sumProduct, boolean]
    | And =>
      rw [value, read_and _ rfl, denote, read_and _ rfl]
      show (children.map fun c => c.value fun ix => indicator R (σ ix)).prod = _
      rw [hchild (Or.inl rfl), prod_indicator]
      rfl
    | Or =>
      have hexcl : (children.map (denote σ)).Pairwise fun b c => b = true → c = false :=
        List.pairwise_map.mpr ((hn _ .refl rfl).imp fun h => h σ hσ)
      rw [value, read_or _ rfl, denote, read_or _ rfl]
      show (children.map fun c => c.value fun ix => indicator R (σ ix)).sum = _
      rw [hchild (Or.inr rfl), sum_indicator hexcl]
      rfl

end

/-- The value of such a circuit is its weighted model count. -/
theorem Sdnnf.counts {R : Type*} [CommSemiring R] (w : Nat → R) {n : Node} (hn : n.Sdnnf) :
    Counts (leafWeight w) n.vars (fun τ => n.denote (Klay.leafHolds τ)) (n.value w) := by
  induction n with
  | mk addr type ix children ih =>
    have hchild : type = .And ∨ type = .Or → ∀ c ∈ children,
        Counts (leafWeight w) c.vars (fun τ => c.denote (Klay.leafHolds τ)) (c.value w) :=
      fun ht c hc => ih c hc (hn.child ⟨ht, hc⟩)
    cases type with
    | True =>
      rw [vars_true rfl]
      exact Counts.top _
    | False =>
      rw [vars_false rfl]
      exact Counts.bottom _ _
    | Leaf =>
      have hlit := Counts.literal (leafWeight w) (ix / 2) (decide (ix % 2 = 0))
      rw [leafWeight_leaf] at hlit
      rw [vars_leaf rfl]
      exact hlit
    | And =>
      have hall := Counts.all (hn.structured.1 _ .refl rfl) (hchild (Or.inl rfl))
      rw [vars_children (Or.inl rfl), value, read_and _ rfl]
      exact hall.congr fun τ => (denote_and (n := .mk addr .And ix children) _ rfl).symm
    | Or =>
      have hsame : ∀ c ∈ children, Counts (leafWeight w) (Node.mk addr .Or ix children).vars
          (fun τ => c.denote (Klay.leafHolds τ)) (c.value w) := by
        intro c hc
        rw [← hn.structured.2.vars_child rfl hc]
        exact hchild (Or.inr rfl) c hc
      have hexcl : children.Pairwise fun c d => ∀ τ, c.denote (Klay.leafHolds τ) = true →
          d.denote (Klay.leafHolds τ) = false :=
        (hn.deterministic _ .refl rfl).imp fun h τ => h _ (leafHolds_complementary τ)
      have hany := Counts.any hexcl hsame
      rw [value, read_or _ rfl]
      exact hany.congr fun τ => (denote_or (n := .mk addr .Or ix children) _ rfl).symm

end Node

section

variable {K : Klay} {trueIxs : Finset Nat} {alloc : Node → Prop}

theorem pairwise_of_forall₂ {rel P Q : Node → Node → Prop} {cs rs : List Node}
    (h : List.Forall₂ rel cs rs) (hPQ : ∀ c r d q, rel c r → rel d q → P c d → Q r q)
    (hcs : cs.Pairwise P) : rs.Pairwise Q := by
  induction h with
  | nil => exact .nil
  | @cons c r cs rs hc hcs' ih =>
    obtain ⟨hfirst, hpair⟩ := List.pairwise_cons.mp hcs
    refine List.pairwise_cons.mpr ⟨fun q hq => ?_, ih hpair⟩
    obtain ⟨d, hd, hdq⟩ := exists_of_forall₂ hcs' hq
    exact hPQ c r d q hc hdq (hfirst d hd)

/-- The result denotes the node under the assignment changed, and is deterministic with it. -/
def KeepsExclusive (trueIxs : Finset Nat) (n r : Node) : Prop :=
  (∀ σ, Complementary σ → r.denote σ = n.denote (setTrue trueIxs σ)) ∧
    (n.Deterministic → r.Deterministic)

theorem KeepsExclusive.exclusive (hS : ∀ ix ∈ trueIxs, ix ^^^ 1 ∉ trueIxs) {c r d q : Node}
    (hc : KeepsExclusive trueIxs c r) (hd : KeepsExclusive trueIxs d q) (h : c.Exclusive d) :
    r.Exclusive q := by
  intro σ hσ hr
  rw [hc.1 σ hσ] at hr
  rw [hd.1 σ hσ]
  exact h _ (setTrue_complementary hS hσ) hr

theorem deterministic_of_forall₂ {n : Node} (ht : n.type = .And ∨ n.type = .Or)
    {rs : List Node} (h : List.Forall₂ (KeepsExclusive trueIxs) n.children rs)
    (hn : n.Deterministic) : ∀ r ∈ rs, r.Deterministic := by
  intro r hr
  obtain ⟨c, hc, hcr⟩ := exists_of_forall₂ h hr
  exact hcr.2 (hn.child ⟨ht, hc⟩)

theorem substitutes_exclusive (hK : K.Simplifies) (hden : K.Denotes)
    (hS : ∀ ix ∈ trueIxs, ix ^^^ 1 ∉ trueIxs) :
    Substitutes K trueIxs alloc (KeepsExclusive trueIxs) where
  constant n hn ht := by
    refine ⟨fun σ hσ => (substitutes_read (hden σ hσ)).constant n hn ht, fun _ => ?_⟩
    exact Node.deterministic_constant (by simpa [Node.isTrue, Node.isFalse] using ht)
  leafTrue n hn ht hix := by
    refine ⟨fun σ hσ => (substitutes_read (hden σ hσ)).leafTrue n hn ht hix, fun _ => ?_⟩
    exact Node.deterministic_constant (Or.inl hK.trueNode)
  leafFalse n hn ht hix hneg := by
    refine ⟨fun σ hσ => (substitutes_read (hden σ hσ)).leafFalse n hn ht hix hneg, fun _ => ?_⟩
    exact Node.deterministic_constant (Or.inr hK.falseNode)
  leafKept n hn ht hix hneg :=
    ⟨fun σ hσ => (substitutes_read (hden σ hσ)).leafKept n hn ht hix hneg, id⟩
  and n hn ht rs hrs := by
    refine ⟨fun σ hσ => ?_, fun h => ?_⟩
    · exact (substitutes_read (hden σ hσ)).and n hn ht rs (hrs.imp fun _ _ hc => hc.1 σ hσ)
    · exact Node.deterministic_andOf (hK.andNode rs) (deterministic_of_forall₂ (Or.inl ht) hrs h)
  or n hn ht rs hrs := by
    refine ⟨fun σ hσ => ?_, fun h => ?_⟩
    · exact (substitutes_read (hden σ hσ)).or n hn ht rs (hrs.imp fun _ _ hc => hc.1 σ hσ)
    · have hexcl := pairwise_of_forall₂ hrs
        (fun _ _ _ _ hc hd hcd => hc.exclusive hS hd hcd) (h n .refl ht)
      exact Node.deterministic_orOf (hK.orNode rs) (deterministic_of_forall₂ (Or.inr ht) hrs h)
        hexcl

/-- The values that the literals of `trueIxs` give their variables. -/
def setValue (trueIxs : Finset Nat) (v : Nat) : Bool := decide (2 * v ∈ trueIxs)

theorem setValue_leaf (hS : ∀ ix ∈ trueIxs, ix ^^^ 1 ∉ trueIxs) {ix : Nat} (hix : ix ∈ trueIxs) :
    setValue trueIxs (ix / 2) = decide (ix % 2 = 0) := by
  unfold setValue
  by_cases h : ix % 2 = 0
  · have heven : 2 * (ix / 2) = ix := by omega
    simp [h, heven, hix]
  · have hodd : 2 * (ix / 2) = ix ^^^ 1 := by
      have hdiv := xor_one_div ix
      have hne := xor_one_ne ix
      omega
    simp [h, hodd, hS ix hix]

/-- Making the leaves true is fixing their variables. -/
theorem setTrue_leafHolds (hS : ∀ ix ∈ trueIxs, ix ^^^ 1 ∉ trueIxs) (τ : Nat → Bool) (ix : Nat) :
    setTrue trueIxs (Klay.leafHolds τ) ix =
      Klay.leafHolds (given (trueIxs.image (· / 2)) (setValue trueIxs) τ) ix := by
  have hpos : ∀ {i}, i ∈ trueIxs →
      given (trueIxs.image (· / 2)) (setValue trueIxs) τ (i / 2) = decide (i % 2 = 0) := by
    intro i hi
    exact (if_pos (Finset.mem_image_of_mem _ hi)).trans (setValue_leaf hS hi)
  unfold setTrue Klay.leafHolds
  by_cases hix : ix ∈ trueIxs
  · simp [hix, hpos hix]
  · by_cases hneg : ix ^^^ 1 ∈ trueIxs
    · have hval := hpos hneg
      rw [xor_one_div] at hval
      have hbit : ¬ ((ix ^^^ 1) % 2 = 0 ↔ ix % 2 = 0) := by
        have hdiv := xor_one_div ix
        have hne := xor_one_ne ix
        omega
      rw [if_neg hix, if_pos hneg, hval]
      symm
      rw [beq_eq_false_iff_ne, ne_eq, decide_eq_decide]
      exact hbit
    · have hout : ix / 2 ∉ trueIxs.image (· / 2) := by
        intro hmem
        obtain ⟨i, hi, hdiv⟩ := Finset.mem_image.mp hmem
        rcases eq_or_xor_of_div_two hdiv.symm with he | he
        · exact hix (he ▸ hi)
        · exact hneg (he ▸ hi)
      simp [hix, hneg, given, hout]

/-- Whether the literals of `trueIxs` over the given variables hold. -/
def literalsHold (trueIxs vars : Finset Nat) (τ : Nat → Bool) : Bool :=
  decide (∀ ix ∈ trueIxs, ix / 2 ∈ vars → Klay.leafHolds τ ix = true)

theorem agrees_eq_literalsHold (hS : ∀ ix ∈ trueIxs, ix ^^^ 1 ∉ trueIxs) (vars : Finset Nat)
    (τ : Nat → Bool) :
    agrees (vars ∩ trueIxs.image (· / 2)) (setValue trueIxs) τ = literalsHold trueIxs vars τ := by
  rw [agrees, literalsHold, decide_eq_decide]
  constructor
  · intro h ix hix hvar
    have hval := h (ix / 2) (Finset.mem_inter.mpr ⟨hvar, Finset.mem_image_of_mem _ hix⟩)
    rw [setValue_leaf hS hix] at hval
    simp [Klay.leafHolds, hval]
  · intro h v hv
    obtain ⟨hvar, hmem⟩ := Finset.mem_inter.mp hv
    obtain ⟨ix, hix, rfl⟩ := Finset.mem_image.mp hmem
    rw [setValue_leaf hS hix]
    simpa [Klay.leafHolds] using h ix hix hvar

theorem prod_leafWeight {R : Type*} [CommSemiring R] (hS : ∀ ix ∈ trueIxs, ix ^^^ 1 ∉ trueIxs)
    (w : Nat → R) (vars : Finset Nat) :
    ∏ v ∈ vars ∩ trueIxs.image (· / 2), leafWeight w v (setValue trueIxs v) =
      ∏ ix ∈ trueIxs.filter (fun ix => ix / 2 ∈ vars), w ix := by
  have himage : vars ∩ trueIxs.image (· / 2) =
      (trueIxs.filter fun ix => ix / 2 ∈ vars).image (· / 2) := by
    ext v
    simp only [Finset.mem_inter, Finset.mem_image, Finset.mem_filter]
    constructor
    · rintro ⟨hv, ix, hix, rfl⟩
      exact ⟨ix, ⟨hix, hv⟩, rfl⟩
    · rintro ⟨ix, ⟨hix, hv⟩, rfl⟩
      exact ⟨hv, ix, hix, rfl⟩
  rw [himage, Finset.prod_image]
  · refine Finset.prod_congr rfl fun ix hix => ?_
    rw [setValue_leaf hS (Finset.mem_filter.mp hix).1, leafWeight_leaf]
  · intro i hi j hj hij
    have hi' := (Finset.mem_filter.mp (Finset.mem_coe.mp hi)).1
    have hj' := (Finset.mem_filter.mp (Finset.mem_coe.mp hj)).1
    rcases eq_or_xor_of_div_two hij with he | he
    · exact he
    · exact absurd hj' (he ▸ hS i hi')

theorem counts_conditioned {R : Type*} [CommSemiring R] (w : Nat → R)
    (hS : ∀ ix ∈ trueIxs, ix ^^^ 1 ∉ trueIxs) {n r : Node} (hn : n.Sdnnf) (hr : r.Sdnnf)
    (hvars : r.isFalse = true ∨ r.vars = n.vars \ trueIxs.image (· / 2))
    (hdenote : ∀ σ, Complementary σ → r.denote σ = n.denote (setTrue trueIxs σ)) :
    Counts (leafWeight w) n.vars
      (fun τ => n.denote (Klay.leafHolds τ) && literalsHold trueIxs n.vars τ)
      (r.value w * ∏ ix ∈ trueIxs.filter (fun ix => ix / 2 ∈ n.vars), w ix) := by
  have hgiven : ∀ τ, r.denote (Klay.leafHolds τ) = n.denote (Klay.leafHolds
      (given (n.vars ∩ trueIxs.image (· / 2)) (setValue trueIxs) τ)) := by
    intro τ
    rw [hdenote _ (leafHolds_complementary τ), funext (setTrue_leafHolds hS τ)]
    refine (hn.counts w).dependsOn fun v hv => ?_
    simp [given, Finset.mem_coe.mp hv]
  have hrest : Counts (leafWeight w) (n.vars \ (n.vars ∩ trueIxs.image (· / 2)))
      (fun τ => n.denote (Klay.leafHolds
        (given (n.vars ∩ trueIxs.image (· / 2)) (setValue trueIxs) τ))) (r.value w) := by
    rw [Finset.sdiff_inter_self_left]
    rcases hvars with hf | hvars
    · have hzero : r.value w = 0 := Node.read_false _ hf
      rw [hzero]
      exact (Counts.bottom _ _).congr fun τ => (Node.read_false _ hf).symm.trans (hgiven τ)
    · rw [← hvars]
      exact (hr.counts w).congr hgiven
  have hcond := Counts.given (f := fun τ => n.denote (Klay.leafHolds τ))
    Finset.inter_subset_left (setValue trueIxs) hrest
  rw [prod_leafWeight hS] at hcond
  exact hcond.congr fun τ => by rw [agrees_eq_literalsHold hS]

/-- Conditioning keeps a circuit deterministic, decomposable and smooth, and divides its count:
the models in which the literals of `trueIxs` hold weigh what the result is worth, times the
weights of those of the literals whose variables the circuit mentions. -/
theorem substituteTrue_counts {R : Type*} [CommSemiring R] (w : Nat → R) (hK : K.Simplifies)
    (hden : K.Denotes) (hS : ∀ ix ∈ trueIxs, ix ^^^ 1 ∉ trueIxs) {n : Node}
    (haddr : ∀ m m' : Node, m.Below n → m'.Below n → m.addr = m'.addr → m = m')
    (hn : n.Sdnnf) :
    let r := (substituteTrue K trueIxs n []).1
    r.Sdnnf ∧ (r.isFalse = true ∨ r.vars = n.vars \ trueIxs.image (· / 2)) ∧
      count (leafWeight w) n.vars
        (fun τ => n.denote (Klay.leafHolds τ) && literalsHold trueIxs n.vars τ) =
          r.value w * ∏ ix ∈ trueIxs.filter (fun ix => ix / 2 ∈ n.vars), w ix := by
  have halloc := Node.addressed_below haddr
  have hcond : Conditioned trueIxs n (substituteTrue K trueIxs n []).1 :=
    substituteTrue_rel halloc (substitutes_conditioned hK) .refl
  have hkeeps : KeepsExclusive trueIxs n (substituteTrue K trueIxs n []).1 :=
    substituteTrue_rel halloc (substitutes_exclusive hK hden hS) .refl
  obtain ⟨hstruct, hvars⟩ := hcond hn.structured
  have hr : Node.Sdnnf (substituteTrue K trueIxs n []).1 := ⟨hstruct, hkeeps.2 hn.deterministic⟩
  exact ⟨hr, hvars, (counts_conditioned w hS hn hr hvars hkeeps.1).count⟩

end

theorem sharedLeaf_sdnnf : sharedLeaf.Sdnnf := by
  have hK := Klay.reference_simplifies
  have hleaf : ∀ l, (Klay.reference.literalNode l).Deterministic :=
    fun l => Node.deterministic_leaf (by simp [(hK.literalNode l).1])
      (by simp [(hK.literalNode l).1])
  have hand : ∀ l, (Klay.reference.andNode
      [Klay.reference.literalNode l, Klay.reference.literalNode 2]).Deterministic := by
    intro l
    refine Node.deterministic_andOf (hK.andNode _) ?_
    simp [hleaf]
  refine ⟨sharedLeaf_structured, Node.deterministic_orOf (hK.orNode _) (by simp [hand]) ?_⟩
  refine List.pairwise_pair.mpr fun σ hσ hc => ?_
  have hneg : σ 3 = !σ 2 := hσ 2
  rw [denote_and (reference_complementary σ hσ)] at hc ⊢
  simp only [List.all_cons, List.all_nil, Bool.and_true,
    denote_literal (reference_complementary σ hσ)] at hc ⊢
  have htwo : σ 2 = true := (Bool.and_eq_true _ _ ▸ hc).1
  change (σ 3 && _) = false
  simp [hneg, htwo]

/-- Given `x2`, the two models weigh 3 and 5 times the weight of `x2`. -/
theorem sharedLeaf_given :
    let w : Nat → Nat := fun ix => if ix = 2 then 3 else if ix = 3 then 5 else 7
    let r := (substituteTrue Klay.reference {4} sharedLeaf []).1
    (r.Sdnnf ∧ (r.isFalse = true ∨ r.vars = sharedLeaf.vars \ ({4} : Finset Nat).image (· / 2)) ∧
      count (leafWeight w) sharedLeaf.vars
        (fun τ => sharedLeaf.denote (Klay.leafHolds τ) && literalsHold {4} sharedLeaf.vars τ) =
          r.value w * ∏ ix ∈ ({4} : Finset Nat).filter (fun ix => ix / 2 ∈ sharedLeaf.vars), w ix) ∧
      r.value w = 8 := by
  have haddr : ∀ m m' : Node, m.Below sharedLeaf → m'.Below sharedLeaf → m.addr = m'.addr →
      m = m' := by
    intro m m' hm hm' h
    have halloc := Klay.reference_allocates.addressed
    exact Klay.made_address (halloc.below sharedLeaf_made hm) (halloc.below sharedLeaf_made hm') h
  have hS : ∀ ix ∈ ({4} : Finset Nat), ix ^^^ 1 ∉ ({4} : Finset Nat) := by decide
  refine ⟨substituteTrue_counts _ Klay.reference_simplifies reference_complementary hS haddr
    sharedLeaf_sdnnf, ?_⟩
  decide

end Kompyle
