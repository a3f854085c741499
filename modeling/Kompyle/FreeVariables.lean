import Kompyle.CircuitValue

namespace Kompyle

open WeightedCount

namespace CallTree

theorem live_trivial (t : CallTree) :
    t.Live (fun _ => True) (fun _ => True) fun _ => True := by
  induction t with
  | createTop => exact .createTop
  | createBottom => exact .bottom rfl
  | manageBottom => exact .bottom rfl
  | manageTop vs => exact .manageTop trivial
  | manageBranch e ih => exact .manageBranch trivial ih
  | manageDeterministOr es ih =>
    exact .manageDeterministOr trivial (fun _ _ => trivial)
      fun e he => ih e (mem_liveBranches.mp he).1
  | manageDecomposableAnd ts ih => exact .manageDecomposableAnd ih

theorem dependsOn_scope {t : CallTree} {s : Finset Nat} (hs : t.HasScope s) :
    DependsOn t.sat (s : Set Nat) := by
  have h := dependsOn_sat (U := ∅) hs
    (live_mono (fun _ h => h) (fun _ _ _ _ => by simp) (fun _ h => h) (live_trivial t))
  rwa [Finset.sdiff_empty] at h

theorem exists_unitsHold {e : DataBranch CallTree} {s : Finset Nat} (hp : e.Partitions s)
    (σ : Nat → Bool) :
    ∃ σ', (∀ v, v ∉ e.unitLits.map Lit.var → σ' v = σ v) ∧ e.unitsHold σ' = true := by
  have hnodup : (e.unitLits.map Lit.var).Nodup := (List.nodup_append.mp hp.1).1
  have hdisj : e.unitLits.Pairwise fun l m => Disjoint ({l.var} : Finset Nat) {m.var} :=
    (List.pairwise_map.mp hnodup).imp fun h => by simpa using h
  obtain ⟨τ, hτ⟩ := exists_glue (fun (l : Lit) (_ : Nat) => !l.sign) hdisj
  refine ⟨fun v => if v ∈ e.unitLits.map Lit.var then τ v else σ v, fun v hv => if_neg hv, ?_⟩
  rw [DataBranch.unitsHold, List.all_eq_true]
  intro l hl
  have hval := hτ l hl l.var (Finset.mem_singleton_self _)
  simp only [Lit.holds, if_pos (List.mem_map_of_mem hl), hval, beq_self_eq_true]

theorem exists_sat_branch {e : DataBranch CallTree} {s : Finset Nat} (hp : e.Partitions s)
    (hd : e.d.HasScope s) (h : ∃ σ, e.d.sat σ = true) : ∃ σ, (manageBranch e).sat σ = true := by
  obtain ⟨σ, hσ⟩ := h
  obtain ⟨σ', hsame, hunits⟩ := exists_unitsHold hp σ
  have hd' : e.d.sat σ' = e.d.sat σ := by
    refine dependsOn_scope hd fun v hv => hsame v fun hu => ?_
    exact hp.2 v (List.mem_append_left _ hu) hv
  exact ⟨σ', by rw [sat_manageBranch, hunits, hd', hσ]; rfl⟩

theorem exists_sat {t : CallTree} {s : Finset Nat} (hs : t.HasScope s)
    (hb : t.isBottom = false) : ∃ σ, t.sat σ = true := by
  induction hs with
  | bottom h => simp [h] at hb
  | createTop => exact ⟨fun _ => false, rfl⟩
  | manageTop => exact ⟨fun _ => false, rfl⟩
  | manageBranch hp hd ih => exact exists_sat_branch hp hd (ih (by simpa using hb))
  | @manageDeterministOr es s sc hp hd ih =>
    have hne : liveBranches es ≠ [] := by
      intro hn
      simp [isBottom_or.mpr hn] at hb
    obtain ⟨e, he⟩ := List.exists_mem_of_ne_nil _ hne
    obtain ⟨σ, hσ⟩ :=
      exists_sat_branch (hp e he).1 (hd e he) (ih e he (mem_liveBranches.mp he).2)
    refine ⟨σ, ?_⟩
    rw [sat_or_live]
    exact List.any_eq_true.mpr ⟨e, he, hσ⟩
  | @manageDecomposableAnd ts sc hp h ih =>
    have hlive : ∀ t ∈ ts, ∃ σ, t.sat σ = true := fun t ht => ih t ht (isBottom_part hb ht)
    choose! f hf using hlive
    obtain ⟨σ, hσ⟩ := exists_glue f hp
    refine ⟨σ, ?_⟩
    rw [sat_manageDecomposableAnd, List.all_eq_true]
    intro t ht
    rw [← hf t ht]
    exact dependsOn_scope (h t ht) (hσ t ht)

/-- The other parts of an and can be satisfied without the variables of one. -/
theorem exists_sat_others {ts : List CallTree} {sc : CallTree → Finset Nat}
    (hp : ts.Pairwise fun t u => Disjoint (sc t) (sc u)) (h : ∀ t ∈ ts, t.HasScope (sc t))
    (hb : (manageDecomposableAnd ts).isBottom = false) {t : CallTree} (ht : t ∈ ts)
    (σ : Nat → Bool) :
    ∃ σ', (∀ x ∈ sc t, σ' x = σ x) ∧ ∀ u ∈ ts, u ≠ t → u.sat σ' = true := by
  classical
  have hlive : ∀ u ∈ ts, ∃ τ, u.sat τ = true :=
    fun u hu => exists_sat (h u hu) (isBottom_part hb hu)
  choose! f hf using hlive
  obtain ⟨σ', hσ'⟩ := exists_glue (fun u => if u = t then σ else f u) hp
  refine ⟨σ', fun x hx => ?_, fun u hu hne => ?_⟩
  · rw [hσ' t ht x hx, if_pos rfl]
  · rw [← hf u hu]
    refine dependsOn_scope (h u hu) fun x hx => ?_
    rw [hσ' u hu x hx, if_neg hne]

theorem sat_flip {t : CallTree} {s : Finset Nat} (hs : t.HasScope s) {σ τ : Nat → Bool}
    (hagree : ∀ u ∈ s, σ u = τ u) {v : Nat} (hv : v ∈ s) :
    t.sat (Function.update σ v (!σ v)) = t.sat (Function.update τ v (!τ v)) := by
  refine dependsOn_scope hs fun u hu => ?_
  by_cases huv : u = v
  · subst huv
    rw [Function.update_self, Function.update_self, hagree u hv]
  · rw [Function.update_of_ne huv, Function.update_of_ne huv, hagree u hu]

/-- Turning the variable around always breaks a satisfying assignment. -/
def Unflippable (t : CallTree) (v : Nat) : Prop :=
  ∀ σ, t.sat σ = true → t.sat (Function.update σ v (!σ v)) = false

section

variable {e : DataBranch CallTree} {s : Finset Nat} {v : Nat}

theorem unitsHold_update (hv : v ∉ e.unitLits.map Lit.var) (σ : Nat → Bool) (b : Bool) :
    e.unitsHold (Function.update σ v b) = e.unitsHold σ := by
  refine DataBranch.dependsOn_unitsHold fun u hu => Function.update_of_ne ?_ b σ
  rintro rfl
  exact hv (List.mem_toFinset.mp hu)

theorem unflippable_d (hp : e.Partitions s) (hd : e.d.HasScope s) (hv : v ∈ s)
    (h : (manageBranch e).Unflippable v) : e.d.Unflippable v := by
  intro σ hσ
  have hnv : ∀ u ∈ s, u ∉ e.unitLits.map Lit.var :=
    fun u hu hm => hp.2 u (List.mem_append_left _ hm) hu
  obtain ⟨σ', hsame, hunits⟩ := exists_unitsHold hp σ
  have hagree : ∀ u ∈ s, σ' u = σ u := fun u hu => hsame u (hnv u hu)
  have hd' : e.d.sat σ' = e.d.sat σ := dependsOn_scope hd hagree
  have hflip := h σ' (by rw [sat_manageBranch, hunits, hd', hσ]; rfl)
  rw [sat_manageBranch, unitsHold_update (hnv v hv), hunits, Bool.true_and] at hflip
  rw [← hflip]
  exact (sat_flip hd hagree hv).symm

theorem flippable_free (hp : e.Partitions s) (hd : e.d.HasScope s) (hb : e.d.isBottom = false)
    (hv : v ∈ e.freeVars) : ¬ (manageBranch e).Unflippable v := by
  intro h
  obtain ⟨σ, hσ⟩ := exists_sat (.manageBranch hp hd) (by simpa using hb)
  have hnu : v ∉ e.unitLits.map Lit.var := by
    intro hu
    exact (List.nodup_append.mp hp.1).2.2 v hu v hv rfl
  have hnd : e.d.sat (Function.update σ v (!σ v)) = e.d.sat σ := by
    refine dependsOn_scope hd fun u hu => Function.update_of_ne ?_ _ σ
    rintro rfl
    exact hp.2 u (List.mem_append_right _ hv) hu
  have hflip := h σ hσ
  rw [sat_manageBranch, unitsHold_update hnu, hnd, ← sat_manageBranch, hσ] at hflip
  cases hflip

end

/-- A variable of one part of an and is determined there if it is determined at all. -/
theorem unflippable_part {ts : List CallTree} {sc : CallTree → Finset Nat}
    (hp : ts.Pairwise fun t u => Disjoint (sc t) (sc u)) (h : ∀ t ∈ ts, t.HasScope (sc t))
    (hb : (manageDecomposableAnd ts).isBottom = false) {t : CallTree} (ht : t ∈ ts) {v : Nat}
    (hv : v ∈ sc t) (hfix : (manageDecomposableAnd ts).Unflippable v) : t.Unflippable v := by
  intro σ hσ
  obtain ⟨σ', hagree, hothers⟩ := exists_sat_others hp h hb ht σ
  have hnotin : ∀ u ∈ ts, u ≠ t → v ∉ sc u := by
    intro u hu hne hvu
    have : Std.Symm fun t u => Disjoint (sc t) (sc u) := ⟨fun _ _ h => h.symm⟩
    exact Finset.disjoint_left.mp (hp.forall hu ht hne) hvu hv
  have hflipped : ∀ u ∈ ts, u ≠ t → u.sat (Function.update σ' v (!σ' v)) = true := by
    intro u hu hne
    rw [← hothers u hu hne]
    refine dependsOn_scope (h u hu) fun x hx => Function.update_of_ne (fun hxv => ?_) _ _
    exact hnotin u hu hne (hxv ▸ hx)
  have hall : (manageDecomposableAnd ts).sat σ' = true := by
    rw [sat_manageDecomposableAnd, List.all_eq_true]
    intro u hu
    by_cases hne : u = t
    · rw [hne, dependsOn_scope (h t ht) hagree, hσ]
    · exact hothers u hu hne
  have hflip := hfix σ' hall
  rw [sat_manageDecomposableAnd, List.all_eq_false] at hflip
  obtain ⟨u, hu, hn⟩ := hflip
  have hut : u = t := by
    by_contra hne
    exact hn (hflipped u hu hne)
  subst hut
  rw [← sat_flip (h u hu) hagree hv]
  simpa using hn

/-- So is a variable of a branch of an or. -/
theorem unflippable_branch {es : List (DataBranch CallTree)} {e : DataBranch CallTree}
    (he : e ∈ liveBranches es) {v : Nat} (hfix : (manageDeterministOr es).Unflippable v) :
    (manageBranch e).Unflippable v := by
  have hsat : ∀ σ, (manageBranch e).sat σ = true → (manageDeterministOr es).sat σ = true := by
    intro σ hσ
    rw [sat_or_live]
    exact List.any_eq_true.mpr ⟨e, he, hσ⟩
  intro σ hσ
  by_contra hflip
  have hbroken := hfix σ (hsat σ hσ)
  rw [hsat _ (by simpa using hflip)] at hbroken
  cases hbroken

theorem eachBranch_unflippable {t : CallTree} {s : Finset Nat} (hs : t.HasScope s)
    {X : Nat → Prop} (hX : ∀ v ∈ s, X v → t.Unflippable v) :
    t.EachBranch fun e => ∀ v ∈ e.freeVars, ¬ X v := by
  have hscope : ∀ {e : DataBranch CallTree} {s : Finset Nat}, (∀ v ∈ e.freeVars, v ∈ e.scope s) ∧
      ∀ v ∈ s, v ∈ e.scope s := by
    intro e s
    refine ⟨fun v hv => ?_, fun v hv => Finset.mem_union_right _ hv⟩
    exact Finset.mem_union_left _ (List.mem_toFinset.mpr (List.mem_append_right _ hv))
  induction hs with
  | bottom h => exact .bottom h
  | createTop => exact .createTop
  | manageTop => exact .manageTop trivial
  | @manageBranch e s hp hd ih =>
    cases hb : e.d.isBottom with
    | true => exact .bottom (by simpa using hb)
    | false =>
      refine .manageBranch (fun v hv hx => ?_) (ih fun v hv hx => ?_)
      · exact flippable_free hp hd hb hv (hX v (hscope.1 v hv) hx)
      · exact unflippable_d hp hd hv (hX v (hscope.2 v hv) hx)
  | @manageDeterministOr es s sc hp hd ih =>
    refine .manageDeterministOr trivial (fun e he v hv hx => ?_) fun e he => ?_
    · obtain ⟨hpart, rfl⟩ := hp e he
      exact flippable_free hpart (hd e he) (mem_liveBranches.mp he).2 hv
        (unflippable_branch he (hX v (hscope.1 v hv) hx))
    · obtain ⟨hpart, rfl⟩ := hp e he
      exact ih e he fun v hv hx => unflippable_d hpart (hd e he) hv
        (unflippable_branch he (hX v (hscope.2 v hv) hx))
  | @manageDecomposableAnd ts sc hp h ih =>
    cases hb : (CallTree.manageDecomposableAnd ts).isBottom with
    | true => exact .bottom hb
    | false =>
      refine .manageDecomposableAnd fun t ht => ih t ht fun v hv hx => ?_
      have hin : v ∈ unions (ts.map sc) := mem_unions.mpr ⟨sc t, List.mem_map_of_mem ht, hv⟩
      exact unflippable_part hp h hb ht hv (hX v hin hx)

end CallTree

end Kompyle
