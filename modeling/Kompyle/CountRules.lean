import Kompyle.WeightedCount

/-!
Rules by which a value is shown to be a weighted count: one for each way of
putting a function together from others.
-/

namespace WeightedCount

variable {V : Type*} [DecidableEq V] {R : Type*} [CommSemiring R] {w : V → Bool → R}

/-- `r` is the weighted count of `f` over a scope that has all that `f` looks at. -/
structure Counts (w : V → Bool → R) (s : Finset V) (f : (V → Bool) → Bool) (r : R) : Prop where
  dependsOn : DependsOn f (s : Set V)
  count : count w s f = r

namespace Counts

variable {s t : Finset V} {f g : (V → Bool) → Bool} {r q : R}

theorem congr (h : Counts w s f r) (hfg : ∀ σ, f σ = g σ) : Counts w s g r := by
  rwa [← funext hfg]

theorem unique (h : Counts w s f r) (h' : Counts w s f q) : r = q :=
  h.count.symm.trans h'.count

theorem bottom (w : V → Bool → R) (s : Finset V) : Counts w s (fun _ => false) 0 :=
  ⟨fun _ _ _ => rfl, count_false w s⟩

theorem top (w : V → Bool → R) : Counts w ∅ (fun _ => true) 1 :=
  ⟨fun _ _ _ => rfl, by simp [count_empty]⟩

theorem free (w : V → Bool → R) (s : Finset V) :
    Counts w s (fun _ => true) (∏ v ∈ s, (w v true + w v false)) :=
  ⟨fun _ _ _ => rfl, count_true w s⟩

theorem literal (w : V → Bool → R) (v : V) (b : Bool) :
    Counts w {v} (fun σ => σ v == b) (w v b) := by
  refine ⟨fun σ τ h => ?_, count_literal w v b⟩
  have hv : σ v = τ v := h v (by simp)
  rw [hv]

theorem and (hst : Disjoint s t) (hf : Counts w s f r) (hg : Counts w t g q) :
    Counts w (s ∪ t) (fun σ => f σ && g σ) (r * q) := by
  refine ⟨fun σ τ h => ?_, ?_⟩
  · have hfσ : f σ = f τ := hf.dependsOn fun v hv => h v (by simp [Finset.mem_coe.mp hv])
    have hgσ : g σ = g τ := hg.dependsOn fun v hv => h v (by simp [Finset.mem_coe.mp hv])
    rw [hfσ, hgσ]
  · rw [count_and hst hf.dependsOn hg.dependsOn, hf.count, hg.count]

theorem or (hfg : ∀ σ, f σ = true → g σ = false) (hf : Counts w s f r) (hg : Counts w s g q) :
    Counts w s (fun σ => f σ || g σ) (r + q) := by
  refine ⟨fun σ τ h => ?_, ?_⟩
  · have hfσ := hf.dependsOn h
    have hgσ := hg.dependsOn h
    rw [hfσ, hgσ]
  · rw [count_or hfg, hf.count, hg.count]

section

variable {ι : Type*} {sc : ι → Finset V} {h : ι → (V → Bool) → Bool} {p : ι → R} {is : List ι}

theorem all (hdisj : is.Pairwise fun i j => Disjoint (sc i) (sc j))
    (hc : ∀ i ∈ is, Counts w (sc i) (h i) (p i)) :
    Counts w (unions (is.map sc)) (fun σ => is.all fun i => h i σ) (is.map p).prod := by
  have hdep : ∀ i ∈ is, DependsOn (h i) (sc i : Set V) := fun i hi => (hc i hi).dependsOn
  refine ⟨dependsOn_all hdep, ?_⟩
  rw [count_all w sc h is hdisj hdep]
  exact congrArg List.prod (List.map_congr_left fun i hi => (hc i hi).count)

theorem any (hexcl : is.Pairwise fun i j => ∀ σ, h i σ = true → h j σ = false)
    (hc : ∀ i ∈ is, Counts w s (h i) (p i)) :
    Counts w s (fun σ => is.any fun i => h i σ) (is.map p).sum := by
  refine ⟨fun σ τ hs => ?_, ?_⟩
  · rw [Bool.eq_iff_iff, List.any_eq_true, List.any_eq_true]
    refine exists_congr fun i => and_congr_right fun hi => ?_
    rw [(hc i hi).dependsOn hs]
  · rw [count_any w s h is hexcl]
    exact congrArg List.sum (List.map_congr_left fun i hi => (hc i hi).count)

end

/-- A cube of literals over distinct variables. -/
theorem cube (w : V → Bool → R) (ls : List (V × Bool)) (hls : (ls.map Prod.fst).Nodup) :
    Counts w (ls.map Prod.fst).toFinset (fun σ => ls.all fun l => σ l.1 == l.2)
      (ls.map fun l => w l.1 l.2).prod := by
  refine ⟨fun σ τ h => ?_, count_cube w ls hls⟩
  rw [Bool.eq_iff_iff, List.all_eq_true, List.all_eq_true]
  refine forall₂_congr fun l hl => ?_
  have hv : σ l.1 = τ l.1 := h l.1 (List.mem_toFinset.mpr (List.mem_map_of_mem hl))
  rw [hv]

end Counts

/-- The assignment with the variables of `u` fixed as in `τ`. -/
def given (u : Finset V) (τ σ : V → Bool) : V → Bool := fun v => if v ∈ u then τ v else σ v

def agrees (u : Finset V) (τ σ : V → Bool) : Bool := decide (∀ v ∈ u, σ v = τ v)

theorem given_eq_self {u : Finset V} {τ σ : V → Bool} (h : agrees u τ σ = true) :
    given u τ σ = σ := by
  funext v
  unfold given
  split
  next hv => exact (of_decide_eq_true h v hv).symm
  next => rfl

theorem counts_agrees (w : V → Bool → R) (u : Finset V) (τ : V → Bool) :
    Counts w u (agrees u τ) (∏ v ∈ u, w v (τ v)) := by
  have hnodup : ((u.toList.map fun v => (v, τ v)).map Prod.fst).Nodup := by
    simpa [Function.comp_def] using u.nodup_toList
  have hcube := Counts.cube w _ hnodup
  have hscope : ((u.toList.map fun v => (v, τ v)).map Prod.fst).toFinset = u := by
    simp [Function.comp_def]
  have hprod : ((u.toList.map fun v => (v, τ v)).map fun l => w l.1 l.2).prod =
      ∏ v ∈ u, w v (τ v) := by
    rw [List.map_map]
    exact Finset.prod_map_toList u fun v => w v (τ v)
  rw [hscope, hprod] at hcube
  refine hcube.congr fun σ => ?_
  rw [Bool.eq_iff_iff, List.all_eq_true, agrees, decide_eq_true_eq]
  simp

/-- Conditioning: the models that have the values of `τ` on `u` weigh what the function left by
these values counts, times the weight of the values. -/
theorem Counts.given {w : V → Bool → R} {s u : Finset V} {f : (V → Bool) → Bool} {r : R}
    (hu : u ⊆ s) (τ : V → Bool)
    (h : Counts w (s \ u) (fun σ => f (WeightedCount.given u τ σ)) r) :
    Counts w s (fun σ => f σ && agrees u τ σ) (r * ∏ v ∈ u, w v (τ v)) := by
  have hand := h.and Finset.sdiff_disjoint (counts_agrees w u τ)
  rw [Finset.sdiff_union_of_subset hu] at hand
  refine hand.congr fun σ => ?_
  cases hσ : agrees u τ σ with
  | false => simp
  | true => rw [given_eq_self hσ]

theorem count_one_eq_zero_iff [CharZero R] {s : Finset V} {f : (V → Bool) → Bool}
    (hf : DependsOn f (s : Set V)) :
    count (fun _ _ => (1 : R)) s f = 0 ↔ ∀ σ, f σ = false := by
  rw [count_one, Nat.cast_eq_zero, Finset.card_eq_zero, Finset.filter_eq_empty_iff]
  constructor
  · intro h σ
    have hsame : f (indicator (Finset.filter (fun v => σ v = true) s)) = f σ :=
      hf fun v hv => by simp [indicator, Finset.mem_coe.mp hv]
    have hmem : Finset.filter (fun v => σ v = true) s ∈ s.powerset :=
      Finset.mem_powerset.mpr (Finset.filter_subset _ _)
    have hnone := h hmem
    rw [hsame] at hnone
    simpa using hnone
  · intro h A _
    simp [h]

omit [DecidableEq V] in
/-- A function that looks at the scope only is its own projection. -/
theorem project_of_dependsOn {s : Finset V} {f : (V → Bool) → Bool} (h : DependsOn f (s : Set V)) :
    project s f = f := by
  funext σ
  rw [Bool.eq_iff_iff, project_eq_true]
  constructor
  · rintro ⟨τ, hagree, hτ⟩
    rw [← hτ]
    exact (h hagree).symm
  · exact fun hσ => ⟨σ, fun _ _ => rfl, hσ⟩

omit [DecidableEq V] in
theorem dependsOn_project (s : Finset V) (f : (V → Bool) → Bool) :
    DependsOn (project s f) (s : Set V) := by
  intro σ τ h
  rw [Bool.eq_iff_iff, project_eq_true, project_eq_true]
  refine exists_congr fun ρ => and_congr_left fun _ => forall₂_congr fun v hv => ?_
  rw [h v (Finset.mem_coe.mpr hv)]

/-- The weights of one assignment: the count is one if it satisfies the function, else zero. -/
theorem count_single {s : Finset V} {f : (V → Bool) → Bool} (hf : DependsOn f (s : Set V))
    (τ : V → Bool) :
    count (fun v b => if τ v = b then (1 : R) else 0) s f = if f τ then 1 else 0 := by
  have hagree : ∀ v ∈ s, indicator (s.filter fun v => τ v) v = τ v := by
    intro v hv
    simp [indicator, hv]
  rw [count, Finset.sum_eq_single (s.filter fun v => τ v)]
  · rw [hf hagree, weight, Finset.prod_eq_one fun v hv => if_pos (hagree v hv).symm]
  · intro A hA hne
    obtain ⟨v, hv, hdiff⟩ : ∃ v ∈ s, τ v ≠ indicator A v := by
      by_contra hall
      push Not at hall
      refine hne (Finset.ext fun v => ?_)
      rw [Finset.mem_filter]
      constructor
      · intro hvA
        have hvs := Finset.mem_powerset.mp hA hvA
        exact ⟨hvs, by rw [hall v hvs]; simp [indicator, hvA]⟩
      · rintro ⟨hvs, hτ⟩
        rw [hall v hvs] at hτ
        simpa [indicator] using hτ
    rw [weight, Finset.prod_eq_zero hv (if_neg hdiff), ite_self]
  · exact fun hno => absurd (Finset.mem_powerset.mpr (Finset.filter_subset _ s)) hno

/-- The Booleans as a semiring: a sum is a disjunction, a product a conjunction. -/
@[ext]
structure Truth where
  holds : Bool

namespace Truth

instance : Zero Truth := ⟨⟨false⟩⟩

instance : One Truth := ⟨⟨true⟩⟩

instance : Add Truth := ⟨fun a b => ⟨a.holds || b.holds⟩⟩

instance : Mul Truth := ⟨fun a b => ⟨a.holds && b.holds⟩⟩

instance : CommSemiring Truth where
  add_assoc a b c := Truth.ext (Bool.or_assoc _ _ _)
  zero_add a := Truth.ext (Bool.false_or a.holds)
  add_zero a := Truth.ext (Bool.or_false a.holds)
  add_comm a b := Truth.ext (Bool.or_comm _ _)
  mul_assoc a b c := Truth.ext (Bool.and_assoc _ _ _)
  one_mul a := Truth.ext (Bool.true_and a.holds)
  mul_one a := Truth.ext (Bool.and_true a.holds)
  mul_comm a b := Truth.ext (Bool.and_comm _ _)
  zero_mul a := Truth.ext (Bool.false_and a.holds)
  mul_zero a := Truth.ext (Bool.and_false a.holds)
  left_distrib a b c := Truth.ext (Bool.and_or_distrib_left _ _ _)
  right_distrib a b c := Truth.ext (Bool.and_or_distrib_right _ _ _)
  nsmul := nsmulRec

theorem holds_sum (xs : List Truth) : xs.sum.holds = xs.any holds := by
  induction xs with
  | nil => rfl
  | cons x xs ih =>
    rw [List.sum_cons, List.any_cons, ← ih]
    rfl

theorem holds_prod (xs : List Truth) : xs.prod.holds = xs.all holds := by
  induction xs with
  | nil => rfl
  | cons x xs ih =>
    rw [List.prod_cons, List.all_cons, ← ih]
    rfl

end Truth
end WeightedCount
