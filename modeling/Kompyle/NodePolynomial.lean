import Kompyle.NodeReadings
import Kompyle.UniformPolynomial

namespace Kompyle

open WeightedCount MvPolynomial

/-- How often a monomial over leaves has each variable, in either polarity. -/
def litDegree : (ℕ →₀ ℕ) →+ (ℕ → ℕ) where
  toFun m v := m (2 * v) + m (2 * v + 1)
  map_zero' := rfl
  map_add' m m' := by
    funext v
    simp only [Finsupp.add_apply, Pi.add_apply]
    omega

theorem litDegree_apply (m : ℕ →₀ ℕ) (v : ℕ) : litDegree m v = m (2 * v) + m (2 * v + 1) := rfl

theorem litDegree_single (ix : ℕ) : litDegree (Finsupp.single ix 1) = Pi.single (ix / 2) 1 := by
  funext v
  rw [litDegree_apply, Finsupp.single_apply, Finsupp.single_apply, Pi.single_apply]
  split <;> split <;> split <;> omega

/-- The leaf and its complement together are the variable. -/
theorem litDegree_leaf (m : ℕ →₀ ℕ) (ix : ℕ) : litDegree m (ix / 2) = m ix + m (ix ^^^ 1) := by
  have hdiv := xor_one_div ix
  have hne := xor_one_ne ix
  rw [litDegree_apply]
  by_cases h : ix % 2 = 0
  · have h₀ : 2 * (ix / 2) = ix := by omega
    have h₁ : 2 * (ix / 2) + 1 = ix ^^^ 1 := by omega
    rw [h₁, h₀]
  · have h₀ : 2 * (ix / 2) = ix ^^^ 1 := by omega
    have h₁ : 2 * (ix / 2) + 1 = ix := by omega
    rw [h₁, h₀, Nat.add_comm]

namespace Node

/-- The value with the leaves themselves as weights. -/
noncomputable def polynomial (n : Node) : MvPolynomial ℕ ℕ := n.value X

theorem polynomial_and {n : Node} (h : n.type = .And) :
    n.polynomial = (n.children.map polynomial).prod := read_and _ h

theorem polynomial_or {n : Node} (h : n.type = .Or) :
    n.polynomial = (n.children.map polynomial).sum := read_or _ h

theorem eval_becomes (w : ℕ → ℕ) : (sumProduct X).Becomes (sumProduct w) (eval w) where
  leaf ix := eval_X ix
  and := map_list_prod (eval w)
  or := map_list_sum (eval w)
  top := map_one (eval w)
  bottom := map_zero (eval w)

/-- A circuit is true where all literals of one of its monomials are. -/
theorem denote_iff_monomial (σ : ℕ → Bool) (n : Node) :
    n.denote σ = true ↔ ∃ m ∈ n.polynomial.support, ∀ ix ∈ m.support, σ ix = true := by
  have hvalue : eval (fun ix => indicator ℕ (σ ix)) n.polynomial =
      n.read (sumProduct fun ix => indicator ℕ (σ ix)) := read_becomes (eval_becomes _) n
  have hdenote := read_becomes (nonzero_becomes σ) n
  have hleaf : ∀ ix, indicator ℕ (σ ix) = 0 ↔ ¬ σ ix = true := by
    intro ix
    cases σ ix <;> simp [indicator]
  rw [denote, ← hdenote, ← hvalue, decide_eq_true_iff, eval_eq, Ne, Finset.sum_eq_zero_iff]
  push Not
  refine exists_congr fun m => and_congr_right fun hm => ?_
  rw [Ne, mul_eq_zero, Finset.prod_eq_zero_iff, not_or]
  push Not
  refine (and_iff_right (mem_support_iff.mp hm)).trans (forall₂_congr fun ix hix => ?_)
  rw [Ne, pow_eq_zero_iff (Finsupp.mem_support_iff.mp hix), hleaf, not_not]

/-- No node is False, and every or has a child. -/
def Reduced (n : Node) : Prop :=
  n.EachBelow fun m => m.isFalse = false ∧ (m.type = .Or → m.children ≠ [])

theorem Reduced.child {n c : Node} (h : n.Reduced) (hc : c.IsChild n) : c.Reduced :=
  fun m hm => h m (hm.tail hc)

theorem Reduced.polynomial_ne_zero {n : Node} (h : n.Reduced) : n.polynomial ≠ 0 := by
  induction n with
  | mk addr type ix children ih =>
    cases type with
    | True => simp [polynomial, value, read, sumProduct]
    | False => simpa [isFalse, type] using (h _ .refl).1
    | Leaf => simp [polynomial, value, read, sumProduct]
    | And =>
      rw [polynomial_and rfl, Ne, List.prod_eq_zero_iff]
      intro hzero
      obtain ⟨c, hc, hc0⟩ := List.mem_map.mp hzero
      exact ih c hc (h.child ⟨Or.inl rfl, hc⟩) hc0
    | Or =>
      obtain ⟨c, hc⟩ := List.exists_mem_of_ne_nil _ ((h _ .refl).2 rfl)
      have hne := ih c hc (h.child ⟨Or.inr rfl, hc⟩)
      obtain ⟨m, hm⟩ := support_nonempty.mpr hne
      rw [polynomial_or rfl]
      exact support_nonempty.mp ⟨m, support_subset_sum (List.mem_map_of_mem hc) hm⟩

/-- Circuits over the same variables that share no monomial are not true together. -/
theorem exclusive_of_uniform {c d : Node} {V : Finset ℕ} (hc : Uniform litDegree V c.polynomial)
    (hd : Uniform litDegree V d.polynomial)
    (hdisj : Disjoint c.polynomial.support d.polynomial.support) : c.Exclusive d := by
  intro σ hσ hcσ
  by_contra hdσ
  obtain ⟨m, hm, hmσ⟩ := (denote_iff_monomial σ c).mp hcσ
  obtain ⟨m', hm', hmσ'⟩ := (denote_iff_monomial σ d).mp (by simpa using hdσ)
  have hfalse : ∀ m : ℕ →₀ ℕ, (∀ ix ∈ m.support, σ ix = true) → ∀ ix, σ ix = false → m ix = 0 := by
    intro m hmσ ix hix
    by_contra hne
    have htrue := hmσ ix (Finsupp.mem_support_iff.mpr hne)
    rw [hix] at htrue
    cases htrue
  have hsame : m = m' := by
    refine Finsupp.ext fun ix => ?_
    cases hix : σ ix with
    | false => rw [hfalse m hmσ ix hix, hfalse m' hmσ' ix hix]
    | true =>
      have hneg : σ (ix ^^^ 1) = false := by rw [hσ, hix]; rfl
      have hdegree := (hc.degree m hm (ix / 2)).trans (hd.degree m' hm' (ix / 2)).symm
      rwa [litDegree_leaf, litDegree_leaf, hfalse m hmσ _ hneg, hfalse m' hmσ' _ hneg,
        Nat.add_zero, Nat.add_zero] at hdegree
  exact Finset.disjoint_left.mp hdisj hm (hsame ▸ hm')

/-- What a monomial count demands of a node. -/
structure Counting (n : Node) : Prop where
  regular : n.Regular
  exclusive : n.type = .Or → n.children.Pairwise Exclusive

theorem sdnnf_iff {n : Node} : n.Sdnnf ↔ n.EachBelow Counting := by
  constructor
  · exact fun h m hm => ⟨structured_iff.mp h.structured m hm, h.deterministic m hm⟩
  · exact fun h => ⟨structured_iff.mpr fun m hm => (h m hm).regular,
      fun m hm => (h m hm).exclusive⟩

theorem counting_leaf {n : Node} (ha : n.type ≠ .And) (ho : n.type ≠ .Or) :
    n.EachBelow Counting :=
  eachBelow_leaf ⟨⟨fun h => absurd h ha, fun h => absurd h ho⟩, fun h => absurd h ho⟩ ha ho

theorem uniform_leaf {ix : ℕ} {V : Finset ℕ}
    (h : Uniform litDegree V (X ix : MvPolynomial ℕ ℕ)) : V = {ix / 2} := by
  ext v
  have hv := h.degree (Finsupp.single ix 1) (by simp) v
  rw [litDegree_single, Pi.single_apply] at hv
  rw [Finset.mem_singleton]
  split at hv <;> split at hv <;> simp_all

section

variable {n : Node} {V : Finset ℕ}

/-- The factors share out the variables. -/
theorem counting_and (ht : n.type = .And) (hne : ∀ c ∈ n.children, c.polynomial ≠ 0)
    (ih : ∀ c ∈ n.children, ∀ U, Uniform litDegree U c.polynomial →
      c.vars = U ∧ c.EachBelow Counting)
    (h : Uniform litDegree V n.polynomial) : n.vars = V ∧ n.EachBelow Counting := by
  rw [polynomial_and ht] at h
  have hfactors : ∀ p ∈ n.children.map polynomial, p ≠ 0 := by
    intro p hp
    obtain ⟨c, hc, rfl⟩ := List.mem_map.mp hp
    exact hne c hc
  obtain ⟨Vs, hVs, hpair, rfl⟩ := h.prod hfactors
  have hboth : List.Forall₂ (fun c U => c.EachBelow Counting ∧ c.vars = U) n.children Vs := by
    refine ((List.forall₂_and_left _ _).mpr ⟨fun c hc => hc,
      List.forall₂_map_left_iff.mp hVs⟩).imp fun c U hcU => ?_
    exact (ih c hcU.1 U hcU.2).symm
  obtain ⟨hbelow, hvars⟩ := (List.forall₂_and_left _ _).mp hboth
  have hVars : n.children.map vars = Vs :=
    List.forall₂_eq_eq_eq ▸ List.forall₂_map_left_iff.mpr hvars
  rw [← hVars] at hpair ⊢
  have hdisj : n.children.Pairwise fun c d => Disjoint c.vars d.vars := List.pairwise_map.mp hpair
  refine ⟨vars_children (Or.inl ht), eachBelow_of_children ⟨⟨fun _ => hdisj, ?_⟩, ?_⟩ ?_⟩
  · simp [ht]
  · simp [ht]
  · exact fun c hc => hbelow c hc.2

/-- The summands have all the variables each, and no monomial in common. -/
theorem counting_or (ht : n.type = .Or) (hne : n.children ≠ [])
    (ih : ∀ c ∈ n.children, ∀ U, Uniform litDegree U c.polynomial →
      c.vars = U ∧ c.EachBelow Counting)
    (h : Uniform litDegree V n.polynomial) : n.vars = V ∧ n.EachBelow Counting := by
  rw [polynomial_or ht] at h
  obtain ⟨hall, hdisj⟩ := h.sum
  have huniform : ∀ c ∈ n.children, Uniform litDegree V c.polynomial := fun c hc =>
    hall _ (List.mem_map_of_mem hc)
  have hvars : ∀ c ∈ n.children, c.vars = V := fun c hc => (ih c hc V (huniform c hc)).1
  have hexclusive : n.children.Pairwise Exclusive :=
    (List.pairwise_map.mp hdisj).imp_of_mem fun hc hd h =>
      exclusive_of_uniform (huniform _ hc) (huniform _ hd) h
  refine ⟨?_, eachBelow_of_children ⟨⟨?_, fun _ c hc d hd => ?_⟩, fun _ => hexclusive⟩ ?_⟩
  · obtain ⟨c, hc⟩ := List.exists_mem_of_ne_nil _ hne
    rw [vars_children (Or.inr ht)]
    ext v
    rw [mem_unions]
    constructor
    · rintro ⟨U, hU, hv⟩
      obtain ⟨d, hd, rfl⟩ := List.mem_map.mp hU
      exact hvars d hd ▸ hv
    · exact fun hv => ⟨V, List.mem_map.mpr ⟨c, hc, hvars c hc⟩, hv⟩
  · simp [ht]
  · rw [hvars c hc, hvars d hd]
  · exact fun c hc => (ih c hc.2 V (huniform c hc.2)).2

end

/-- A reduced circuit whose polynomial is a sum of different monomials over the same variables is
smooth, decomposable and deterministic. -/
theorem Reduced.counting {n : Node} (hn : n.Reduced) {V : Finset ℕ}
    (h : Uniform litDegree V n.polynomial) : n.vars = V ∧ n.EachBelow Counting := by
  induction n generalizing V with
  | mk addr type ix children ih =>
    cases type with
    | True =>
      have hone : (mk addr .True ix children).polynomial = 1 := by
        simp [polynomial, value, read, sumProduct]
      rw [hone] at h
      exact ⟨(vars_true rfl).trans h.one.symm, counting_leaf (by simp [type]) (by simp [type])⟩
    | False => simpa [isFalse, type] using (hn _ .refl).1
    | Leaf =>
      have hX : (mk addr .Leaf ix children).polynomial = X ix := by
        simp [polynomial, value, read, sumProduct]
      rw [hX] at h
      exact ⟨(vars_leaf rfl).trans (uniform_leaf h).symm,
        counting_leaf (by simp [type]) (by simp [type])⟩
    | And =>
      have hchild : ∀ c ∈ children, c.Reduced := fun c hc => hn.child ⟨Or.inl rfl, hc⟩
      exact counting_and rfl (fun c hc => (hchild c hc).polynomial_ne_zero)
        (fun c hc U => ih c hc (hchild c hc)) h
    | Or =>
      have hchild : ∀ c ∈ children, c.Reduced := fun c hc => hn.child ⟨Or.inr rfl, hc⟩
      exact counting_or rfl ((hn _ .refl).2 rfl) (fun c hc U => ih c hc (hchild c hc)) h

theorem Reduced.sdnnf {n : Node} (hn : n.Reduced) {V : Finset ℕ}
    (h : Uniform litDegree V n.polynomial) : n.vars = V ∧ n.Sdnnf :=
  ⟨(hn.counting h).1, sdnnf_iff.mpr (hn.counting h).2⟩

/-- The False node, or a circuit without it. -/
def Clean (n : Node) : Prop := n.isFalse = true ∨ n.Reduced

theorem Clean.reduced {n : Node} (h : n.Clean) (hf : n.isFalse = false) : n.Reduced :=
  h.resolve_left (by simp [hf])

theorem clean_leaf {n : Node} (ha : n.type ≠ .And) (ho : n.type ≠ .Or) : n.Clean := by
  cases hf : n.isFalse with
  | true => exact Or.inl hf
  | false => exact Or.inr (eachBelow_leaf ⟨hf, fun h => absurd h ho⟩ ha ho)

theorem clean_gathers {type : NodeType} (htype : type ≠ .False) {ys : List Node} {n : Node}
    (h : Klay.Gathers type ys n) (hys : ∀ y ∈ ys, y.Reduced) : n.Clean := by
  obtain ⟨hne, ⟨ht, hsub, hall⟩ | hsame⟩ := h
  · obtain ⟨y, hy⟩ := List.exists_mem_of_ne_nil _ hne
    refine Or.inr (eachBelow_of_children ⟨?_, fun _ => List.ne_nil_of_mem (hall hy)⟩ ?_)
    · simpa [isFalse, ht] using htype
    · exact fun c hc => hys c (hsub.subset hc.2)
  · obtain ⟨y, hy⟩ := List.exists_mem_of_ne_nil _ hne
    exact Or.inr (hsame y hy ▸ hys y hy)

theorem clean_andOf {xs : List Node} {n : Node} (h : Klay.AndOf xs n)
    (hxs : ∀ x ∈ xs, x.Clean) : n.Clean := by
  rcases h with ⟨-, hf⟩ | ⟨hnone, ⟨-, ht⟩ | hg⟩
  · exact Or.inl hf
  · exact clean_leaf (type_of_constant (Or.inl ht)).1 (type_of_constant (Or.inl ht)).2
  · refine clean_gathers (by decide) hg fun y hy => ?_
    have hmem := List.mem_of_mem_filter hy
    exact (hxs y hmem).reduced (hnone y hmem)

theorem clean_orOf {xs : List Node} {n : Node} (h : Klay.OrOf xs n)
    (hxs : ∀ x ∈ xs, x.Clean) : n.Clean := by
  rcases h with ⟨-, hf⟩ | ⟨-, ht⟩ | hg
  · exact Or.inl hf
  · exact clean_leaf (type_of_constant (Or.inl ht)).1 (type_of_constant (Or.inl ht)).2
  · refine clean_gathers (by decide) hg fun y hy => ?_
    obtain ⟨hmem, hf⟩ := List.mem_filter.mp hy
    exact (hxs y hmem).reduced (by simpa using hf)

end Node

end Kompyle
