import Mathlib.Algebra.BigOperators.Group.Finset.Sigma
import Mathlib.Algebra.BigOperators.Ring.Finset
import Mathlib.Algebra.Order.BigOperators.Group.Finset
import Mathlib.Data.Finset.Powerset
import Mathlib.Logic.Function.DependsOn

/-!
Weighted model counting over a finite scope: the sum, over the total assignments
of the scope that satisfy a Boolean function, of the product of the weights of
the assignment's literals.
-/

namespace WeightedCount

variable {V : Type*} [DecidableEq V] {R : Type*} [CommSemiring R]

/-- The assignment that makes exactly the members of `A` true. -/
def indicator (A : Finset V) : V → Bool := fun v => decide (v ∈ A)

def weight (w : V → Bool → R) (s : Finset V) (σ : V → Bool) : R := ∏ v ∈ s, w v (σ v)

def count (w : V → Bool → R) (s : Finset V) (f : (V → Bool) → Bool) : R :=
  ∑ A ∈ s.powerset, if f (indicator A) then weight w s (indicator A) else 0

theorem indicator_union_left {s t A B : Finset V} (hst : Disjoint s t) (hB : B ⊆ t)
    {v : V} (hv : v ∈ s) : indicator (A ∪ B) v = indicator A v := by
  have hn : v ∉ B := fun h => (Finset.disjoint_left.mp hst hv) (hB h)
  simp [indicator, hn]

theorem indicator_union_right {s t A B : Finset V} (hst : Disjoint s t) (hA : A ⊆ s)
    {v : V} (hv : v ∈ t) : indicator (A ∪ B) v = indicator B v := by
  rw [Finset.union_comm]
  exact indicator_union_left hst.symm hA hv

omit [DecidableEq V] in
theorem weight_congr {w w' : V → Bool → R} {s : Finset V} {σ τ : V → Bool}
    (h : ∀ v ∈ s, w v (σ v) = w' v (τ v)) : weight w s σ = weight w' s τ :=
  Finset.prod_congr rfl h

theorem count_congr {w w' : V → Bool → R} {s : Finset V} {f g : (V → Bool) → Bool}
    (hw : ∀ v ∈ s, ∀ b, w v b = w' v b) (h : ∀ A ⊆ s, f (indicator A) = g (indicator A)) :
    count w s f = count w' s g := by
  refine Finset.sum_congr rfl fun A hA => ?_
  rw [h A (Finset.mem_powerset.mp hA), weight_congr fun v hv => hw v hv _]

theorem count_false (w : V → Bool → R) (s : Finset V) : count w s (fun _ => false) = 0 := by
  simp [count]

theorem count_empty (w : V → Bool → R) (f : (V → Bool) → Bool) :
    count w ∅ f = if f (fun _ => false) then 1 else 0 := by
  rw [count, Finset.powerset_empty, Finset.sum_singleton]
  rfl

/-- The subsets of a disjoint union are the unions of a subset of either part. -/
theorem sum_powerset_union {s t : Finset V} (hst : Disjoint s t) (F : Finset V → R) :
    ∑ A ∈ (s ∪ t).powerset, F A = ∑ A ∈ s.powerset, ∑ B ∈ t.powerset, F (A ∪ B) := by
  rw [← Finset.sum_product']
  symm
  refine Finset.sum_nbij' (fun p => p.1 ∪ p.2) (fun A => (A ∩ s, A ∩ t)) ?_ ?_ ?_ ?_ ?_
  · intro p hp
    simp only [Finset.mem_product, Finset.mem_powerset] at hp ⊢
    exact Finset.union_subset_union hp.1 hp.2
  · intro A _
    simp only [Finset.mem_product, Finset.mem_powerset]
    exact ⟨Finset.inter_subset_right, Finset.inter_subset_right⟩
  · rintro ⟨A, B⟩ hp
    simp only [Finset.mem_product, Finset.mem_powerset] at hp
    have hAt : A ∩ t = ∅ := Finset.disjoint_iff_inter_eq_empty.mp (hst.mono_left hp.1)
    have hBs : B ∩ s = ∅ := Finset.disjoint_iff_inter_eq_empty.mp (hst.symm.mono_left hp.2)
    simp [Finset.union_inter_distrib_right, hAt, hBs, Finset.inter_eq_left.mpr hp.1,
      Finset.inter_eq_left.mpr hp.2]
  · intro A hA
    rw [← Finset.inter_union_distrib_left]
    exact Finset.inter_eq_left.mpr (Finset.mem_powerset.mp hA)
  · intro p _
    rfl

theorem weight_union {w : V → Bool → R} {s t A B : Finset V} (hst : Disjoint s t)
    (hA : A ⊆ s) (hB : B ⊆ t) :
    weight w (s ∪ t) (indicator (A ∪ B)) = weight w s (indicator A) * weight w t (indicator B) := by
  rw [weight, Finset.prod_union hst]
  congr 1
  · exact weight_congr fun v hv => by rw [indicator_union_left hst hB hv]
  · exact weight_congr fun v hv => by rw [indicator_union_right hst hA hv]

/-- A conjunction of functions over disjoint scopes counts the product. -/
theorem count_and {w : V → Bool → R} {s t : Finset V} {f g : (V → Bool) → Bool}
    (hst : Disjoint s t) (hf : DependsOn f (s : Set V)) (hg : DependsOn g (t : Set V)) :
    count w (s ∪ t) (fun σ => f σ && g σ) = count w s f * count w t g := by
  rw [count, sum_powerset_union hst, count, count, Finset.sum_mul_sum]
  refine Finset.sum_congr rfl fun A hA => Finset.sum_congr rfl fun B hB => ?_
  have hA' := Finset.mem_powerset.mp hA
  have hB' := Finset.mem_powerset.mp hB
  have hfA : f (indicator (A ∪ B)) = f (indicator A) :=
    hf fun v hv => indicator_union_left hst hB' hv
  have hgB : g (indicator (A ∪ B)) = g (indicator B) :=
    hg fun v hv => indicator_union_right hst hA' hv
  rw [hfA, hgB, weight_union hst hA' hB']
  cases f (indicator A) <;> cases g (indicator B) <;> simp

/-- A disjunction of functions that are never true together counts the sum. -/
theorem count_or {w : V → Bool → R} {s : Finset V} {f g : (V → Bool) → Bool}
    (h : ∀ σ, f σ = true → g σ = false) :
    count w s (fun σ => f σ || g σ) = count w s f + count w s g := by
  rw [count, count, count, ← Finset.sum_add_distrib]
  refine Finset.sum_congr rfl fun A _ => ?_
  have hA := h (indicator A)
  cases hf : f (indicator A) <;> cases hg : g (indicator A) <;> simp_all

theorem sum_powerset_singleton (v : V) (F : Finset V → R) :
    ∑ A ∈ ({v} : Finset V).powerset, F A = F ∅ + F {v} := by
  have h : ({v} : Finset V).powerset = {∅, {v}} := by
    ext A
    simp [Finset.subset_singleton_iff]
  rw [h, Finset.sum_pair (Finset.singleton_ne_empty v).symm]

theorem count_literal (w : V → Bool → R) (v : V) (b : Bool) :
    count w {v} (fun σ => σ v == b) = w v b := by
  rw [count, sum_powerset_singleton]
  cases b <;> simp [indicator, weight]

theorem count_free (w : V → Bool → R) (v : V) :
    count w {v} (fun _ => true) = w v true + w v false := by
  rw [count, sum_powerset_singleton]
  simp [indicator, weight, add_comm]

/-- A cube of literals over distinct variables counts the product of their weights. -/
theorem count_cube (w : V → Bool → R) :
    ∀ ls : List (V × Bool), (ls.map Prod.fst).Nodup →
      count w (ls.map Prod.fst).toFinset (fun σ => ls.all fun l => σ l.1 == l.2) =
        (ls.map fun l => w l.1 l.2).prod
  | [], _ => by simp [count_empty]
  | (v, b) :: ls, h => by
    obtain ⟨hv, hn⟩ := List.nodup_cons.mp h
    have hd : Disjoint ({v} : Finset V) (ls.map Prod.fst).toFinset := by
      simpa using hv
    have hf : DependsOn (fun σ : V → Bool => σ v == b) (({v} : Finset V) : Set V) := by
      intro σ τ hs
      simp [hs v (by simp)]
    have hg : DependsOn (fun σ : V → Bool => ls.all fun l => σ l.1 == l.2)
        ((ls.map Prod.fst).toFinset : Set V) := by
      intro σ τ hs
      rw [Bool.eq_iff_iff, List.all_eq_true, List.all_eq_true]
      refine forall₂_congr fun l hl => ?_
      rw [hs l.1 (List.mem_toFinset.mpr (List.mem_map_of_mem hl))]
    have := count_and (w := w) hd hf hg
    simpa [count_literal, count_cube w ls hn] using this

theorem count_true (w : V → Bool → R) (s : Finset V) :
    count w s (fun _ => true) = ∏ v ∈ s, (w v true + w v false) := by
  induction s using Finset.induction with
  | empty => simp [count_empty]
  | insert v s hv ih =>
    have hd : Disjoint ({v} : Finset V) s := Finset.disjoint_singleton_left.mpr hv
    have hc : ∀ u : Finset V, DependsOn (fun _ : V → Bool => true) (u : Set V) :=
      fun u => (dependsOn_const true).mono (Set.empty_subset _)
    have h := count_and (w := w) hd (hc {v}) (hc s)
    rw [Finset.prod_insert hv, Finset.insert_eq, ← ih, ← count_free w v, ← h]
    rfl

/-- Variables that the function does not look at can be left out where their weights sum to one. -/
theorem count_subset {w : V → Bool → R} {s t : Finset V} {f : (V → Bool) → Bool} (hst : s ⊆ t)
    (hf : DependsOn f (s : Set V)) (hw : ∀ v ∈ t, w v true + w v false = 1) :
    count w t f = count w s f := by
  have htrue : DependsOn (fun _ : V → Bool => true) (↑(t \ s) : Set V) :=
    (dependsOn_const true).mono (Set.empty_subset _)
  have hone : count w (t \ s) (fun _ => true) = 1 := by
    rw [count_true]
    exact Finset.prod_eq_one fun v hv => hw v (Finset.mem_sdiff.mp hv).1
  have hand := count_and (w := w) Finset.disjoint_sdiff hf htrue
  rw [Finset.union_sdiff_of_subset hst, hone, mul_one] at hand
  simpa only [Bool.and_true] using hand

theorem count_any {ι : Type*} (w : V → Bool → R) (s : Finset V) (f : ι → (V → Bool) → Bool) :
    ∀ is : List ι, is.Pairwise (fun i j => ∀ σ, f i σ = true → f j σ = false) →
      count w s (fun σ => is.any fun i => f i σ) = (is.map fun i => count w s (f i)).sum
  | [], _ => by simpa using count_false w s
  | i :: is, h => by
    obtain ⟨hi, his⟩ := List.pairwise_cons.mp h
    have hor : ∀ σ, f i σ = true → (is.any fun j => f j σ) = false := by
      intro σ hσ
      simp only [List.any_eq_false]
      intro j hj
      simp [hi j hj σ hσ]
    have := count_or (w := w) (s := s) hor
    simpa [count_any w s f is his] using this

/-- Variables whose values are a function of the others, and weigh nothing, can be left out. -/
theorem count_determined {w : V → Bool → R} {s t : Finset V} {f g : (V → Bool) → Bool}
    (hst : Disjoint s t) (hw : ∀ v ∈ t, ∀ b, w v b = 1) (B : Finset V → Finset V)
    (hB : ∀ A ⊆ s, B A ⊆ t)
    (h : ∀ A ⊆ s, ∀ C ⊆ t, f (indicator (A ∪ C)) = true ↔ C = B A ∧ g (indicator A) = true) :
    count w (s ∪ t) f = count w s g := by
  rw [count, sum_powerset_union hst, count]
  refine Finset.sum_congr rfl fun A hA => ?_
  have hAs := Finset.mem_powerset.mp hA
  have hzero : ∀ C ∈ t.powerset, C ≠ B A →
      (if f (indicator (A ∪ C)) then weight w (s ∪ t) (indicator (A ∪ C)) else 0) = 0 := by
    intro C hC hne
    refine if_neg fun hf => hne ?_
    exact ((h A hAs C (Finset.mem_powerset.mp hC)).mp hf).1
  rw [Finset.sum_eq_single (B A) hzero
    fun hn => absurd (Finset.mem_powerset.mpr (hB A hAs)) hn]
  have hone : weight w t (indicator (B A)) = 1 := Finset.prod_eq_one fun v hv => hw v hv _
  rw [weight_union hst hAs (hB A hAs), hone, mul_one]
  have hiff := h A hAs (B A) (hB A hAs)
  cases hg : g (indicator A) with
  | true => rw [if_pos (hiff.mpr ⟨rfl, hg⟩)]; rfl
  | false => rw [if_neg fun hf => by simp [hg] at hiff; simp [hiff] at hf]; rfl

theorem mem_image_of_injOn {U : Type*} {s A : Finset U} {φ : U → V} (hφ : Set.InjOn φ s)
    (hA : A ⊆ s) {u : U} (hu : u ∈ s) : φ u ∈ A.image φ ↔ u ∈ A := by
  refine ⟨fun hm => ?_, Finset.mem_image_of_mem φ⟩
  obtain ⟨u', hu', he⟩ := Finset.mem_image.mp hm
  rwa [← hφ (hA hu') hu he]

theorem count_image {U : Type*} [DecidableEq U] {w : V → Bool → R} {s : Finset U} {φ : U → V}
    (hφ : Set.InjOn φ s) {f : (V → Bool) → Bool} {g : (U → Bool) → Bool}
    (h : ∀ A ⊆ s, f (indicator (A.image φ)) = g (indicator A)) :
    count w (s.image φ) f = count (fun u => w (φ u)) s g := by
  symm
  refine Finset.sum_nbij' (fun A => A.image φ) (fun C => s.filter fun u => φ u ∈ C) ?_ ?_ ?_ ?_ ?_
  · exact fun A hA =>
      Finset.mem_powerset.mpr (Finset.image_subset_image (Finset.mem_powerset.mp hA))
  · exact fun C _ => Finset.mem_powerset.mpr (Finset.filter_subset _ s)
  · intro A hA
    have hAs := Finset.mem_powerset.mp hA
    rw [Finset.filter_congr fun u hu => mem_image_of_injOn hφ hAs hu, Finset.filter_mem_eq_inter]
    exact Finset.inter_eq_right.mpr hAs
  · intro C hC
    have hCs := Finset.mem_powerset.mp hC
    ext v
    simp only [Finset.mem_image, Finset.mem_filter]
    constructor
    · rintro ⟨u, ⟨-, hu⟩, rfl⟩
      exact hu
    · intro hv
      obtain ⟨u, hu, rfl⟩ := Finset.mem_image.mp (hCs hv)
      exact ⟨u, ⟨hu, hv⟩, rfl⟩
  · intro A hA
    have hAs := Finset.mem_powerset.mp hA
    have hweight : weight w (s.image φ) (indicator (A.image φ)) =
        weight (fun u => w (φ u)) s (indicator A) := by
      rw [weight, Finset.prod_image hφ]
      refine Finset.prod_congr rfl fun u hu => ?_
      have hval : indicator (A.image φ) (φ u) = indicator A u := by
        simp only [indicator, mem_image_of_injOn hφ hAs hu]
      rw [hval]
    rw [h A hAs, hweight]

/-- Weights that single out one assignment: the count tells whether it satisfies the function. -/
theorem count_agreeing {s : Finset V} {f : (V → Bool) → Bool} (hf : DependsOn f (s : Set V))
    (τ : V → Bool) :
    count (fun v b => if τ v = b then (1 : ℕ) else 0) s f ≠ 0 ↔ f τ = true := by
  have hweight : ∀ σ : V → Bool, weight (fun v b => if τ v = b then (1 : ℕ) else 0) s σ ≠ 0 ↔
      ∀ v ∈ s, τ v = σ v := by
    intro σ
    rw [weight, Finset.prod_ne_zero_iff]
    refine forall₂_congr fun v _ => ?_
    split
    next h => simp [h]
    next h => simp [h]
  rw [count, Ne, Finset.sum_eq_zero_iff]
  push Not
  constructor
  · rintro ⟨A, -, hA⟩
    have hfA : f (indicator A) = true := by
      by_contra hn
      exact hA (if_neg hn)
    rw [if_pos hfA] at hA
    rw [← hfA]
    exact hf ((hweight _).mp hA)
  · intro h
    have hagree : ∀ v ∈ s, τ v = indicator (s.filter fun v => τ v) v := by
      intro v hv
      simp [indicator, hv]
    refine ⟨s.filter fun v => τ v, Finset.mem_powerset.mpr (Finset.filter_subset _ s), ?_⟩
    have hfA : f (indicator (s.filter fun v => τ v)) = true := (hf hagree).symm.trans h
    rw [if_pos hfA]
    exact (hweight _).mpr hagree

theorem count_one (s : Finset V) (f : (V → Bool) → Bool) :
    count (fun _ _ => (1 : R)) s f = ((s.powerset.filter fun A => f (indicator A)).card : R) := by
  rw [count, Finset.sum_ite, Finset.sum_const_zero, add_zero]
  simp [weight]

open Classical in
/-- Whether some assignment that agrees on the scope satisfies the function. -/
noncomputable def project (s : Finset V) (f : (V → Bool) → Bool) (σ : V → Bool) : Bool :=
  decide (∃ τ, (∀ v ∈ s, τ v = σ v) ∧ f τ = true)

omit [DecidableEq V] in
theorem project_eq_true {s : Finset V} {f : (V → Bool) → Bool} {σ : V → Bool} :
    project s f σ = true ↔ ∃ τ, (∀ v ∈ s, τ v = σ v) ∧ f τ = true := by
  simp only [project, decide_eq_true_eq]

/-- Counting a projection over renamed variables, for functions that every assignment of either
side satisfies with its counterpart. -/
theorem count_project_image {U : Type*} [DecidableEq U] {w : V → Bool → R} {s : Finset U}
    {φ : U → V} (hφ : Set.InjOn φ s) {f : (V → Bool) → Bool} {g : (U → Bool) → Bool}
    (hpull : ∀ τ, f τ = g (τ ∘ φ))
    (hpush : ∀ σ, ∃ τ : V → Bool, (∀ u ∈ s, τ (φ u) = σ u) ∧ f τ = g σ) :
    count w (s.image φ) (project (s.image φ) f) = count (fun u => w (φ u)) s (project s g) := by
  apply count_image hφ
  intro A hA
  have hmem : ∀ u ∈ s, indicator (A.image φ) (φ u) = indicator A u := by
    intro u hu
    simp only [indicator, mem_image_of_injOn hφ hA hu]
  rw [Bool.eq_iff_iff, project_eq_true, project_eq_true]
  constructor
  · intro ⟨τ, hagree, hτ⟩
    refine ⟨τ ∘ φ, fun u hu => ?_, (hpull τ).symm.trans hτ⟩
    exact (hagree (φ u) (Finset.mem_image_of_mem φ hu)).trans (hmem u hu)
  · intro ⟨σ, hagree, hσ⟩
    obtain ⟨τ, hτ, hf⟩ := hpush σ
    refine ⟨τ, fun v hv => ?_, hf.trans hσ⟩
    obtain ⟨u, hu, rfl⟩ := Finset.mem_image.mp hv
    rw [hτ u hu, hmem u hu, hagree u hu]

theorem exists_glue {ι : Type*} {sc : ι → Finset V} (f : ι → V → Bool) {is : List ι}
    (h : is.Pairwise fun i j => Disjoint (sc i) (sc j)) :
    ∃ σ : V → Bool, ∀ i ∈ is, ∀ v ∈ sc i, σ v = f i v := by
  induction is with
  | nil => exact ⟨fun _ => false, by simp⟩
  | cons i is ih =>
    obtain ⟨hi, his⟩ := List.pairwise_cons.mp h
    obtain ⟨σ, hσ⟩ := ih his
    refine ⟨fun v => if v ∈ sc i then f i v else σ v, List.forall_mem_cons.mpr ⟨?_, ?_⟩⟩
    · intro v hv
      exact if_pos hv
    · intro j hj v hv
      have hn : v ∉ sc i := fun hvi => Finset.disjoint_left.mp (hi j hj) hvi hv
      rw [← hσ j hj v hv]
      exact if_neg hn

def unions (ss : List (Finset V)) : Finset V := ss.foldr (· ∪ ·) ∅

theorem mem_unions {ss : List (Finset V)} {v : V} : v ∈ unions ss ↔ ∃ s ∈ ss, v ∈ s := by
  induction ss with
  | nil => simp [unions]
  | cons s ss ih =>
    rw [unions] at ih ⊢
    simp [ih]

theorem unions_append (ss ts : List (Finset V)) : unions (ss ++ ts) = unions ss ∪ unions ts := by
  ext v
  simp [mem_unions, or_and_right, exists_or]

theorem unions_singletons {ι : Type*} (f : ι → V) (is : List ι) :
    unions (is.map fun i => ({f i} : Finset V)) = (is.map f).toFinset := by
  ext v
  simp [mem_unions, eq_comm]

theorem unions_sdiff (ss : List (Finset V)) (u : Finset V) :
    unions ss \ u = unions (ss.map (· \ u)) := by
  ext v
  simp only [Finset.mem_sdiff, mem_unions, List.mem_map]
  constructor
  · rintro ⟨⟨s, hs, hv⟩, hu⟩
    exact ⟨s \ u, ⟨s, hs, rfl⟩, Finset.mem_sdiff.mpr ⟨hv, hu⟩⟩
  · rintro ⟨_, ⟨s, hs, rfl⟩, hv⟩
    exact ⟨⟨s, hs, (Finset.mem_sdiff.mp hv).1⟩, (Finset.mem_sdiff.mp hv).2⟩

theorem disjoint_unions {s : Finset V} {ss : List (Finset V)} (h : ∀ t ∈ ss, Disjoint s t) :
    Disjoint s (unions ss) := by
  refine Finset.disjoint_left.mpr fun v hv hm => ?_
  obtain ⟨t, ht, hvt⟩ := mem_unions.mp hm
  exact Finset.disjoint_left.mp (h t ht) hv hvt

theorem dependsOn_all {ι : Type*} {sc : ι → Finset V} {f : ι → (V → Bool) → Bool}
    {is : List ι} (h : ∀ i ∈ is, DependsOn (f i) (sc i : Set V)) :
    DependsOn (fun σ => is.all fun i => f i σ) (unions (is.map sc) : Set V) := by
  intro σ τ hs
  rw [Bool.eq_iff_iff, List.all_eq_true, List.all_eq_true]
  refine forall₂_congr fun i hi => ?_
  rw [h i hi fun v hv => hs v (mem_unions.mpr ⟨sc i, List.mem_map_of_mem hi, hv⟩)]

theorem count_all {ι : Type*} (w : V → Bool → R) (sc : ι → Finset V)
    (f : ι → (V → Bool) → Bool) :
    ∀ is : List ι, is.Pairwise (fun i j => Disjoint (sc i) (sc j)) →
      (∀ i ∈ is, DependsOn (f i) (sc i : Set V)) →
      count w (unions (is.map sc)) (fun σ => is.all fun i => f i σ) =
        (is.map fun i => count w (sc i) (f i)).prod
  | [], _, _ => by simp [unions, count_empty]
  | i :: is, h, hd => by
    obtain ⟨hi, his⟩ := List.pairwise_cons.mp h
    have hds : ∀ j ∈ is, DependsOn (f j) (sc j : Set V) :=
      fun j hj => hd j (List.mem_cons_of_mem i hj)
    have hdisj : Disjoint (sc i) (unions (is.map sc)) := by
      refine disjoint_unions fun t ht => ?_
      obtain ⟨j, hj, rfl⟩ := List.mem_map.mp ht
      exact hi j hj
    have := count_and (w := w) hdisj (hd i (by simp)) (dependsOn_all hds)
    simpa [unions, ← count_all w sc f is his hds] using this

end WeightedCount
