import Kompyle.WeightedCount
import Mathlib.Algebra.MvPolynomial.Eval

/-!
Polynomials with natural coefficients. Nothing cancels in them, so what is known of the monomials
of a sum or a product is known of those of its parts.
-/

namespace WeightedCount

open MvPolynomial

variable {ι κ : Type*} [DecidableEq κ] {δ : (ι →₀ ℕ) →+ (κ → ℕ)} {V : Finset κ}

section

variable {p q : MvPolynomial ι ℕ} {m m' : ι →₀ ℕ}

theorem mem_support_add : m ∈ (p + q).support ↔ m ∈ p.support ∨ m ∈ q.support := by
  rw [mem_support_iff, mem_support_iff, mem_support_iff, coeff_add]
  omega

theorem coeff_mul_le : coeff m p * coeff m' q ≤ coeff (m + m') (p * q) := by
  classical
  rw [coeff_mul]
  have hmem : (m, m') ∈ Finset.HasAntidiagonal.antidiagonal (m + m') :=
    Finset.HasAntidiagonal.mem_antidiagonal.mpr rfl
  exact Finset.single_le_sum (f := fun x : (ι →₀ ℕ) × (ι →₀ ℕ) => coeff x.1 p * coeff x.2 q)
    (fun _ _ => Nat.zero_le _) hmem

theorem mem_support_mul (h : m ∈ p.support) (h' : m' ∈ q.support) :
    m + m' ∈ (p * q).support := by
  rw [mem_support_iff] at h h' ⊢
  have hpos := Nat.mul_pos (Nat.pos_of_ne_zero h) (Nat.pos_of_ne_zero h')
  exact Nat.pos_iff_ne_zero.mp (hpos.trans_le coeff_mul_le)

end

theorem support_subset_sum {p : MvPolynomial ι ℕ} {ps : List (MvPolynomial ι ℕ)} (hp : p ∈ ps) :
    p.support ⊆ ps.sum.support := by
  induction ps with
  | nil => cases hp
  | cons q ps ih =>
    intro m hm
    rw [List.sum_cons, mem_support_add]
    rcases List.mem_cons.mp hp with rfl | hp
    · exact Or.inl hm
    · exact Or.inr (ih hp hm)

/-- Each monomial has each variable of `V` once, as `δ` counts variables, and no other, and there
is no monomial twice. -/
structure Uniform (δ : (ι →₀ ℕ) →+ (κ → ℕ)) (V : Finset κ) (p : MvPolynomial ι ℕ) : Prop where
  degree : ∀ m ∈ p.support, ∀ v, δ m v = if v ∈ V then 1 else 0
  once : ∀ m, p.coeff m ≤ 1

namespace Uniform

variable {p q : MvPolynomial ι ℕ} {ps : List (MvPolynomial ι ℕ)}

theorem one (h : Uniform δ V 1) : V = ∅ := by
  have hzero : (0 : ι →₀ ℕ) ∈ (1 : MvPolynomial ι ℕ).support := by simp
  refine Finset.eq_empty_of_forall_notMem fun v hv => ?_
  have hdegree := h.degree 0 hzero v
  rw [map_zero, if_pos hv] at hdegree
  cases hdegree

theorem degree_add (h : Uniform δ V (p * q)) {m m' : ι →₀ ℕ} (hm : m ∈ p.support)
    (hm' : m' ∈ q.support) (v : κ) : δ m v + δ m' v = if v ∈ V then 1 else 0 := by
  rw [← h.degree _ (mem_support_mul hm hm'), map_add, Pi.add_apply]

/-- Next to one monomial of the other factor, all monomials of a factor have the same variables. -/
theorem left (h : Uniform δ V (p * q)) {m₁ m₂ : ι →₀ ℕ} (h₁ : m₁ ∈ p.support)
    (h₂ : m₂ ∈ q.support) : Uniform δ (V.filter fun v => δ m₁ v = 1) p where
  degree m hm v := by
    have hv := h.degree_add hm h₂ v
    have hv₁ := h.degree_add h₁ h₂ v
    by_cases hV : v ∈ V
    · rw [if_pos hV] at hv hv₁
      simp only [Finset.mem_filter, hV, true_and]
      split <;> omega
    · rw [if_neg hV] at hv
      simp only [Finset.mem_filter, hV, false_and, if_false]
      omega
  once m := by
    have hpos := Nat.pos_of_ne_zero (mem_support_iff.mp h₂)
    exact (Nat.le_mul_of_pos_right _ hpos).trans (coeff_mul_le.trans (h.once (m + m₂)))

theorem mul (h : Uniform δ V (p * q)) (hp : p ≠ 0) (hq : q ≠ 0) :
    ∃ V₁ V₂, Uniform δ V₁ p ∧ Uniform δ V₂ q ∧ Disjoint V₁ V₂ ∧ V₁ ∪ V₂ = V := by
  obtain ⟨m₁, h₁⟩ := support_nonempty.mpr hp
  obtain ⟨m₂, h₂⟩ := support_nonempty.mpr hq
  have hboth := h.degree_add h₁ h₂
  refine ⟨_, _, h.left h₁ h₂, (mul_comm p q ▸ h).left h₂ h₁, ?_, ?_⟩
  · rw [Finset.disjoint_left]
    intro v hv hv'
    have hv₁ := (Finset.mem_filter.mp hv).2
    have hv₂ := (Finset.mem_filter.mp hv').2
    have hv := hboth v
    split at hv <;> omega
  · ext v
    have hv := hboth v
    rw [Finset.mem_union, Finset.mem_filter, Finset.mem_filter, ← and_or_left]
    refine and_iff_left_of_imp fun hV => ?_
    rw [if_pos hV] at hv
    omega

theorem prod (h : Uniform δ V ps.prod) (hps : ∀ p ∈ ps, p ≠ 0) :
    ∃ Vs, List.Forall₂ (fun p U => Uniform δ U p) ps Vs ∧ Vs.Pairwise Disjoint ∧
      unions Vs = V := by
  induction ps generalizing V with
  | nil => exact ⟨[], .nil, .nil, h.one.symm⟩
  | cons p ps ih =>
    obtain ⟨hp, hps⟩ := List.forall_mem_cons.mp hps
    have htail : ps.prod ≠ 0 := by
      rw [Ne, List.prod_eq_zero_iff]
      exact fun hzero => hps 0 hzero rfl
    rw [List.prod_cons] at h
    obtain ⟨V₁, V₂, h₁, h₂, hdisj, rfl⟩ := h.mul hp htail
    obtain ⟨Vs, hVs, hpair, rfl⟩ := ih h₂ hps
    refine ⟨V₁ :: Vs, .cons h₁ hVs, List.pairwise_cons.mpr ⟨fun U hU => ?_, hpair⟩, rfl⟩
    exact hdisj.mono_right fun v hv => mem_unions.mpr ⟨U, hU, hv⟩

theorem add (h : Uniform δ V (p + q)) :
    Uniform δ V p ∧ Uniform δ V q ∧ Disjoint p.support q.support := by
  have hcoeff : ∀ m, p.coeff m + q.coeff m ≤ 1 := by
    intro m
    rw [← coeff_add]
    exact h.once m
  refine ⟨⟨fun m hm => h.degree m (mem_support_add.mpr (Or.inl hm)), fun m => ?_⟩,
    ⟨fun m hm => h.degree m (mem_support_add.mpr (Or.inr hm)), fun m => ?_⟩, ?_⟩
  · exact (Nat.le_add_right _ _).trans (hcoeff m)
  · exact (Nat.le_add_left _ _).trans (hcoeff m)
  · rw [Finset.disjoint_left]
    intro m hp hq
    rw [mem_support_iff] at hp hq
    have hm := hcoeff m
    omega

theorem sum (h : Uniform δ V ps.sum) :
    (∀ p ∈ ps, Uniform δ V p) ∧ ps.Pairwise fun p q => Disjoint p.support q.support := by
  induction ps with
  | nil => exact ⟨by simp, .nil⟩
  | cons p ps ih =>
    rw [List.sum_cons] at h
    obtain ⟨hp, hps, hdisj⟩ := h.add
    obtain ⟨hall, hpair⟩ := ih hps
    refine ⟨List.forall_mem_cons.mpr ⟨hp, hall⟩, List.pairwise_cons.mpr ⟨fun q hq => ?_, hpair⟩⟩
    exact hdisj.mono_right (support_subset_sum hq)

end Uniform

section

variable {α : Type*} {code : α → Bool → ι} {g : α → κ} {s : Finset α}

/-- The monomial of an assignment. -/
noncomputable def monomialOf (code : α → Bool → ι) (s : Finset α) (σ : α → Bool) : ι →₀ ℕ :=
  ∑ v ∈ s, Finsupp.single (code v (σ v)) 1

theorem weight_monomial (σ : α → Bool) :
    weight (fun v b => (X (code v b) : MvPolynomial ι ℕ)) s σ =
      monomial (monomialOf code s σ) 1 :=
  (monomial_sum_one s fun v => Finsupp.single (code v (σ v)) 1).symm

omit [DecidableEq κ] in
theorem monomialOf_injective [DecidableEq α] (hg : Set.InjOn g s)
    (hcode : ∀ u ∈ s, ∀ v ∈ s, ∀ b c, code u b = code v c → g u = g v ∧ b = c)
    {A B : Finset α} (hA : A ⊆ s) (hB : B ⊆ s)
    (h : monomialOf code s (indicator A) = monomialOf code s (indicator B)) :
    A = B := by
  have hsub : ∀ A B : Finset α, A ⊆ s → monomialOf code s (indicator A) =
      monomialOf code s (indicator B) → A ⊆ B := by
    intro A B hA h v hv
    have hone : 1 ≤ monomialOf code s (indicator A) (code v true) := by
      rw [monomialOf, Finsupp.finsetSum_apply]
      have hterm : Finsupp.single (code v (indicator A v)) 1 (code v true) = 1 := by
        rw [indicator, decide_eq_true hv, Finsupp.single_eq_same]
      refine hterm.symm.le.trans (Finset.single_le_sum
        (f := fun u => Finsupp.single (code u (indicator A u)) 1 (code v true)) ?_ (hA hv))
      exact fun _ _ => Nat.zero_le _
    rw [h, monomialOf, Finsupp.finsetSum_apply] at hone
    obtain ⟨u, hu, hne⟩ := Finset.exists_ne_zero_of_sum_ne_zero (Nat.one_le_iff_ne_zero.mp hone)
    have hcode' : code u (indicator B u) = code v true := by
      by_contra hno
      exact hne (Finsupp.single_eq_of_ne (Ne.symm hno))
    obtain ⟨hguv, hb⟩ := hcode u hu v (hA hv) _ _ hcode'
    obtain rfl := hg hu (hA hv) hguv
    simpa [indicator] using hb
  exact (hsub A B hA h).antisymm (hsub B A hB h.symm)

theorem degree_monomialOf (hδ : ∀ v b, δ (Finsupp.single (code v b) 1) = Pi.single (g v) 1)
    (hg : Set.InjOn g s) (σ : α → Bool) (k : κ) :
    δ (monomialOf code s σ) k = if k ∈ s.image g then 1 else 0 := by
  rw [monomialOf, map_sum, Finset.sum_apply]
  simp only [hδ]
  split
  next hk =>
    obtain ⟨v, hv, rfl⟩ := Finset.mem_image.mp hk
    rw [Finset.sum_eq_single_of_mem v hv, Pi.single_eq_same]
    intro u hu hne
    exact Pi.single_eq_of_ne (fun heq => hne (hg hu hv heq.symm)) 1
  next hk =>
    refine Finset.sum_eq_zero fun v hv => Pi.single_eq_of_ne ?_ 1
    rintro rfl
    exact hk (Finset.mem_image_of_mem g hv)

/-- The count with the literals as weights is the sum of the monomials of the models. -/
theorem uniform_count [DecidableEq α]
    (hδ : ∀ v b, δ (Finsupp.single (code v b) 1) = Pi.single (g v) 1) (hg : Set.InjOn g s)
    (hcode : ∀ u ∈ s, ∀ v ∈ s, ∀ b c, code u b = code v c → g u = g v ∧ b = c)
    (f : (α → Bool) → Bool) :
    Uniform δ (s.image g) (count (fun v b => (X (code v b) : MvPolynomial ι ℕ)) s f) := by
  classical
  have hterm : ∀ m A, coeff m (if f (indicator A) then
      weight (fun v b => (X (code v b) : MvPolynomial ι ℕ)) s (indicator A) else 0) =
        if f (indicator A) = true ∧ monomialOf code s (indicator A) = m then 1 else 0 := by
    intro m A
    rw [weight_monomial]
    split
    next hf => simp [hf, coeff_monomial]
    next hf => simp [hf]
  have hcoeff : ∀ m, coeff m (count (fun v b => (X (code v b) : MvPolynomial ι ℕ)) s f) =
      (s.powerset.filter fun A =>
        f (indicator A) = true ∧ monomialOf code s (indicator A) = m).card := by
    intro m
    rw [count, coeff_sum, Finset.card_filter]
    exact Finset.sum_congr rfl fun A _ => hterm m A
  refine ⟨fun m hm k => ?_, fun m => ?_⟩
  · rw [mem_support_iff, hcoeff, ← Nat.pos_iff_ne_zero, Finset.card_pos] at hm
    obtain ⟨A, hA⟩ := hm
    rw [← (Finset.mem_filter.mp hA).2.2]
    exact degree_monomialOf hδ hg _ k
  · rw [hcoeff, Finset.card_le_one]
    intro A hA B hB
    obtain ⟨hAs, -, hAm⟩ := Finset.mem_filter.mp hA
    obtain ⟨hBs, -, hBm⟩ := Finset.mem_filter.mp hB
    exact monomialOf_injective hg hcode (Finset.mem_powerset.mp hAs) (Finset.mem_powerset.mp hBs)
      (hAm.trans hBm.symm)

end

end WeightedCount
