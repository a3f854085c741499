import Kompyle.CountingOperation
import Kompyle.KlayReference

namespace Kompyle

namespace CallTree

theorem plainTops_branch {e : DataBranch CallTree} :
    (manageBranch e).PlainTops ↔ e.d.PlainTops := by
  cases hb : e.d.isBottom with
  | true => exact ⟨fun _ => Live.bottom hb, fun _ => Live.bottom (by simpa using hb)⟩
  | false => exact ⟨fun h => (live_branch h hb).2, fun h => Live.manageBranch trivial h⟩

theorem plainTops_or {es : List (DataBranch CallTree)} :
    (manageDeterministOr es).PlainTops ↔ ∀ e ∈ es, (manageBranch e).PlainTops := by
  constructor
  · intro h e he
    rw [plainTops_branch]
    cases hb : e.d.isBottom with
    | true => exact Live.bottom hb
    | false =>
      have hlive := mem_liveBranches.mpr ⟨he, hb⟩
      exact ((live_or h (List.ne_nil_of_mem hlive)).2 e hlive).2
  · intro h
    refine Live.manageDeterministOr trivial (fun _ _ => trivial) fun e he => ?_
    exact plainTops_branch.mp (h e (mem_liveBranches.mp he).1)

theorem plainTops_and {ts : List CallTree} (hb : (manageDecomposableAnd ts).isBottom = false) :
    (manageDecomposableAnd ts).PlainTops ↔ ∀ t ∈ ts, t.PlainTops :=
  ⟨fun h => live_and h hb, fun h => Live.manageDecomposableAnd h⟩

theorem plainTops_top {vs : List Nat} : (manageTop vs).PlainTops ↔ vs = [] :=
  ⟨fun h => live_top (T := (· = [])) h, fun h => Live.manageTop h⟩

theorem isBottom_and_false {ts : List CallTree} :
    (manageDecomposableAnd ts).isBottom = false ↔ ∀ t ∈ ts, t.isBottom = false := by
  rw [← Bool.not_eq_true, isBottom_and]
  push Not
  simp

end CallTree

/-- A bottom run counts nothing on either path; any other has a model, and the count is never
below the circuit's value. -/
def Bounds (K : Klay) (t : CallTree) : Prop :=
  (t.isBottom = true → unitValue K t = 0 ∧ t.modelCount = 0) ∧
    (t.isBottom = false → 0 < unitValue K t ∧ unitValue K t ≤ t.modelCount)

section

variable {K : Klay} (hK : K.Evaluates (Node.sumProduct fun _ => (1 : Int)) fun _ => 1)

theorem Bounds.le {t : CallTree} (h : Bounds K t) : 0 ≤ unitValue K t ∧
    unitValue K t ≤ t.modelCount := by
  cases hb : t.isBottom with
  | true => have := h.1 hb; omega
  | false => have := h.2 hb; omega

include hK

theorem bounds_branch {e : DataBranch CallTree} (h : Bounds K e.d) :
    Bounds K (.manageBranch e) := by
  have hpow : (0 : Int) < 2 ^ e.freeVars.length := Int.pow_pos (by omega)
  rw [Bounds, CallTree.isBottom_manageBranch, unitValue_manageBranch hK,
    CallTree.modelCount_manageBranch]
  refine ⟨fun hb => ?_, fun hb => ?_⟩
  · obtain ⟨hu, hm⟩ := h.1 hb
    simp [hu, hm]
  · obtain ⟨hpos, hle⟩ := h.2 hb
    exact ⟨Int.mul_pos hpos hpow, Int.mul_le_mul_of_nonneg_right hle hpow.le⟩

theorem bounds_or {es : List (DataBranch CallTree)}
    (h : ∀ e ∈ es, Bounds K (.manageBranch e)) : Bounds K (.manageDeterministOr es) := by
  rw [Bounds, unitValue_or hK, CallTree.modelCount_or]
  refine ⟨fun hb => ?_, fun hb => ?_⟩
  · have hzero : ∀ e ∈ es, unitValue K (.manageBranch e) = 0 ∧
        (CallTree.manageBranch e).modelCount = 0 := by
      intro e he
      refine (h e he).1 ?_
      rw [CallTree.isBottom_manageBranch]
      exact CallTree.isBottom_branch hb he
    rw [List.map_congr_left fun e he => (hzero e he).1,
      List.map_congr_left fun e he => (hzero e he).2]
    simp
  · have hne : liveBranches es ≠ [] := by
      intro hn
      simp [CallTree.isBottom_or.mpr hn] at hb
    obtain ⟨e, he⟩ := List.exists_mem_of_ne_nil _ hne
    obtain ⟨hmem, hbe⟩ := CallTree.mem_liveBranches.mp he
    have hpos := ((h e hmem).2 (by simpa using hbe)).1
    have hnonneg : ∀ x ∈ es.map fun e => unitValue K (.manageBranch e), 0 ≤ x := by
      intro x hx
      obtain ⟨e, he, rfl⟩ := List.mem_map.mp hx
      exact (h e he).le.1
    have hsum : unitValue K (.manageBranch e) ≤
        (es.map fun e => unitValue K (.manageBranch e)).sum :=
      List.single_le_sum hnonneg _ (List.mem_map_of_mem hmem)
    exact ⟨by omega, List.sum_le_sum fun e he => (h e he).le.2⟩

theorem bounds_and {ts : List CallTree} (h : ∀ t ∈ ts, Bounds K t) :
    Bounds K (.manageDecomposableAnd ts) := by
  rw [Bounds, unitValue_and hK, CallTree.modelCount_and]
  refine ⟨fun hb => ?_, fun hb => ?_⟩
  · obtain ⟨t, ht, hbt⟩ := CallTree.isBottom_and.mp hb
    obtain ⟨hu, hm⟩ := (h t ht).1 hbt
    exact ⟨List.prod_eq_zero (List.mem_map.mpr ⟨t, ht, hu⟩),
      List.prod_eq_zero (List.mem_map.mpr ⟨t, ht, hm⟩)⟩
  · have hlive := CallTree.isBottom_and_false.mp hb
    exact prod_pos_le fun t ht => (h t ht).2 (hlive t ht)

theorem bounds (t : CallTree) : Bounds K t := by
  have hpow : ∀ n : Nat, (0 : Int) < 2 ^ n := fun n => Int.pow_pos (by omega)
  induction t with
  | createTop =>
    refine ⟨fun h => by simp [CallTree.isBottom, bottomOperation] at h, fun _ => ?_⟩
    rw [unitValue_top hK]
    simp [CallTree.modelCount, countingOperation]
  | createBottom =>
    refine ⟨fun _ => ⟨(unitValue_bottom hK).1, rfl⟩, fun h => ?_⟩
    simp [CallTree.isBottom, bottomOperation] at h
  | manageBottom =>
    refine ⟨fun _ => ⟨(unitValue_bottom hK).2, rfl⟩, fun h => ?_⟩
    simp [CallTree.isBottom, bottomOperation] at h
  | manageTop vs =>
    refine ⟨fun h => by simp [CallTree.isBottom, bottomOperation] at h, fun _ => ?_⟩
    have := hpow vs.length
    rw [unitValue_manageTop hK]
    simp [CallTree.modelCount, countingOperation, CountingOperation.pow2_eq]
    omega
  | manageBranch e ih => exact bounds_branch hK ih
  | manageDeterministOr es ih => exact bounds_or hK fun e he => bounds_branch hK (ih e he)
  | manageDecomposableAnd ts ih => exact bounds_and hK ih

/-- The two paths agree on a run exactly when no variable is handed to manageTop outside a
part that a bottom cuts off. -/
theorem modelCount_eq_unitValue_iff (t : CallTree) :
    t.modelCount = unitValue K t ↔ t.PlainTops := by
  have hbranch : ∀ e : DataBranch CallTree, (e.d.modelCount = unitValue K e.d ↔ e.d.PlainTops) →
      ((CallTree.manageBranch e).modelCount = unitValue K (.manageBranch e) ↔
        (CallTree.manageBranch e).PlainTops) := by
    intro e ih
    have hpow : (2 : Int) ^ e.freeVars.length ≠ 0 := by simp
    rw [CallTree.plainTops_branch, ← ih, unitValue_manageBranch hK,
      CallTree.modelCount_manageBranch]
    exact mul_left_inj' hpow
  induction t with
  | createTop =>
    simp only [unitValue_top hK]
    exact ⟨fun _ => .createTop, fun _ => rfl⟩
  | createBottom =>
    simp only [(unitValue_bottom hK).1]
    exact ⟨fun _ => .bottom rfl, fun _ => rfl⟩
  | manageBottom =>
    simp only [(unitValue_bottom hK).2]
    exact ⟨fun _ => .bottom rfl, fun _ => rfl⟩
  | manageTop vs =>
    rw [CallTree.plainTops_top, unitValue_manageTop hK]
    have hpow : (2 : Int) ^ vs.length = 1 ↔ vs.length = 0 := by
      constructor
      · intro h
        by_contra hn
        obtain ⟨m, hm⟩ := Nat.exists_eq_succ_of_ne_zero hn
        rw [hm, pow_succ] at h
        omega
      · intro h
        rw [h, pow_zero]
    simpa [CallTree.modelCount, countingOperation, CountingOperation.pow2_eq] using hpow
  | manageBranch e ih => exact hbranch e ih
  | manageDeterministOr es ih =>
    rw [CallTree.plainTops_or, unitValue_or hK, CallTree.modelCount_or,
      sum_eq_iff_of_le fun e _ => (bounds hK (.manageBranch e)).le.2]
    exact forall₂_congr fun e he => hbranch e (ih e he)
  | manageDecomposableAnd ts ih =>
    cases hb : (CallTree.manageDecomposableAnd ts).isBottom with
    | true =>
      obtain ⟨hu, hm⟩ := (bounds hK (.manageDecomposableAnd ts)).1 hb
      rw [hu, hm]
      exact ⟨fun _ => .bottom hb, fun _ => rfl⟩
    | false =>
      have hlive := CallTree.isBottom_and_false.mp hb
      rw [CallTree.plainTops_and hb, unitValue_and hK, CallTree.modelCount_and,
        prod_eq_iff_of_le fun t ht => (bounds hK t).2 (hlive t ht)]
      exact forall₂_congr ih

end

theorem clauseRun_modelCount :
    CallTree.clauseRun.modelCount = unitValue Klay.reference CallTree.clauseRun ↔
      CallTree.clauseRun.PlainTops :=
  modelCount_eq_unitValue_iff (Klay.reference_evaluates (sumProduct_absorbs _)) _

/-- A manageTop on one variable counts two models, but its circuit is True. -/
theorem not_modelCount_eq_unitValue :
    ¬ ∀ K : Klay, K.Evaluates (Node.sumProduct fun _ => (1 : Int)) (fun _ => 1) →
      ∀ (t : CallTree) (s : Finset Nat), t.HasScope s → t.Deterministic →
        t.modelCount = unitValue K t := by
  intro h
  have hscope : (CallTree.manageTop [1]).HasScope [1].toFinset := .manageTop (by simp)
  have he := h Klay.reference (Klay.reference_evaluates (sumProduct_absorbs _))
    (.manageTop [1]) _ hscope (CallTree.Live.manageTop trivial)
  exact absurd he (by decide)

end Kompyle
