import Kompyle.CircuitValue
import Mathlib.Algebra.Order.BigOperators.Group.List
import Mathlib.Algebra.Order.Ring.Int

namespace Kompyle

namespace CountingOperation

def pow2 (n : Nat) : Int := (1 : Int) <<< n

def wrapBranch (b : DataBranch Int) : Int := b.d * pow2 b.freeVars.length

theorem pow2_eq (n : Nat) : pow2 n = 2 ^ n := by simp [pow2, Int.shiftLeft_eq]

end CountingOperation

def countingOperation : Operation Int where
  createTop := 1
  createBottom := 0
  manageBottom := 0
  manageTop freeVars := CountingOperation.pow2 freeVars.length
  manageBranch b := CountingOperation.wrapBranch b
  manageDeterministOr elts := elts.foldl (fun s e => s + CountingOperation.wrapBranch e) 0
  manageDecomposableAnd elts := elts.foldl (fun p e => p * e) 1

namespace CallTree

def modelCount (t : CallTree) : Int := t.run countingOperation

theorem modelCount_manageBranch (e : DataBranch CallTree) :
    (manageBranch e).modelCount = e.d.modelCount * 2 ^ e.freeVars.length := by
  simp [modelCount, countingOperation, CountingOperation.wrapBranch, CountingOperation.pow2_eq]

theorem modelCount_or (es : List (DataBranch CallTree)) :
    (manageDeterministOr es).modelCount = (es.map fun e => (manageBranch e).modelCount).sum := by
  have h : ∀ (bs : List (DataBranch Int)) (s : Int),
      bs.foldl (fun s e => s + CountingOperation.wrapBranch e) s =
        s + (bs.map CountingOperation.wrapBranch).sum := by
    intro bs
    induction bs with
    | nil => simp
    | cons b bs ih =>
      intro s
      rw [List.foldl_cons, ih, List.map_cons, List.sum_cons, add_assoc]
  simp [modelCount, countingOperation, h, Function.comp_def]

theorem modelCount_and (ts : List CallTree) :
    (manageDecomposableAnd ts).modelCount = (ts.map modelCount).prod := by
  rw [modelCount, run_manageDecomposableAnd, List.prod_eq_foldl]
  rfl

end CallTree

/-- The two lists have the same sum only if they agree everywhere, the one never exceeding
the other. -/
theorem sum_eq_iff_of_le {ι : Type*} {f g : ι → Int} {is : List ι} (h : ∀ i ∈ is, f i ≤ g i) :
    (is.map g).sum = (is.map f).sum ↔ ∀ i ∈ is, g i = f i := by
  induction is with
  | nil => simp
  | cons i is ih =>
    have hi := h i (by simp)
    have his : ∀ j ∈ is, f j ≤ g j := fun j hj => h j (List.mem_cons_of_mem i hj)
    have hle : (is.map f).sum ≤ (is.map g).sum := List.sum_le_sum his
    rw [List.map_cons, List.map_cons, List.sum_cons, List.sum_cons, List.forall_mem_cons,
      ← ih his]
    omega

theorem prod_pos_le {ι : Type*} {f g : ι → Int} {is : List ι}
    (h : ∀ i ∈ is, 0 < f i ∧ f i ≤ g i) :
    0 < (is.map f).prod ∧ (is.map f).prod ≤ (is.map g).prod := by
  induction is with
  | nil => simp
  | cons i is ih =>
    obtain ⟨hpos, hle⟩ := h i (by simp)
    obtain ⟨hpos', hle'⟩ := ih fun j hj => h j (List.mem_cons_of_mem i hj)
    rw [List.map_cons, List.map_cons, List.prod_cons, List.prod_cons]
    exact ⟨Int.mul_pos hpos hpos', Int.mul_le_mul hle hle' hpos'.le (hpos.le.trans hle)⟩

/-- The same for products of positive numbers. -/
theorem prod_eq_iff_of_le {ι : Type*} {f g : ι → Int} {is : List ι}
    (h : ∀ i ∈ is, 0 < f i ∧ f i ≤ g i) :
    (is.map g).prod = (is.map f).prod ↔ ∀ i ∈ is, g i = f i := by
  induction is with
  | nil => simp
  | cons i is ih =>
    obtain ⟨hpos, hle⟩ := h i (by simp)
    have his : ∀ j ∈ is, 0 < f j ∧ f j ≤ g j := fun j hj => h j (List.mem_cons_of_mem i hj)
    obtain ⟨hpos', hle'⟩ := prod_pos_le his
    rw [List.map_cons, List.map_cons, List.prod_cons, List.prod_cons, List.forall_mem_cons,
      ← ih his]
    constructor
    · intro he
      have hfst : g i = f i := by
        by_contra hne
        have hlt : f i < g i := lt_of_le_of_ne hle (Ne.symm hne)
        have := Int.mul_lt_mul hlt hle' hpos' (hpos.le.trans hle)
        omega
      rw [hfst] at he
      exact ⟨hfst, Int.eq_of_mul_eq_mul_left (by omega) he⟩
    · rintro ⟨h₁, h₂⟩
      rw [h₁, h₂]

/-- The value of the run's circuit, without a mask, with all literals weighted one. -/
def unitValue (K : Klay) (t : CallTree) : Int :=
  (t.run (klayCircuitOperation K [])).value fun _ => (1 : Int)

section

variable {K : Klay} (hK : K.Evaluates (Node.sumProduct fun _ => (1 : Int)) fun _ => 1)

include hK

theorem unitValue_manageBranch (e : DataBranch CallTree) :
    unitValue K (.manageBranch e) = unitValue K e.d * 2 ^ e.freeVars.length := by
  change (wrapBranch K [] (CallTree.runBranch (klayCircuitOperation K []) e)).value
    (fun _ => (1 : Int)) = _
  rw [value_wrapBranch hK]
  simp [maskWeight, isMasked, unitValue]

theorem unitValue_or (es : List (DataBranch CallTree)) :
    unitValue K (.manageDeterministOr es) =
      (es.map fun e => unitValue K (.manageBranch e)).sum := by
  rw [unitValue, CallTree.run_manageDeterministOr, value_manageDeterministOr hK, List.map_map]
  rfl

theorem unitValue_and (ts : List CallTree) :
    unitValue K (.manageDecomposableAnd ts) = (ts.map (unitValue K)).prod := by
  rw [unitValue, CallTree.run_manageDecomposableAnd, value_manageDecomposableAnd hK, List.map_map]
  rfl

theorem unitValue_top : unitValue K .createTop = 1 := value_trueNode hK

theorem unitValue_manageTop (vs : List Nat) : unitValue K (.manageTop vs) = 1 :=
  value_trueNode hK

theorem unitValue_bottom : unitValue K .createBottom = 0 ∧ unitValue K .manageBottom = 0 :=
  ⟨value_falseNode hK, value_falseNode hK⟩

end

end Kompyle
