import Kompyle.CountRules
import Kompyle.DeterministicCircuit
import Mathlib.Algebra.BigOperators.Ring.List
import Mathlib.Algebra.Order.Field.Rat
import Mathlib.Tactic.Linarith
import Mathlib.Tactic.NormNum

namespace Kompyle

open WeightedCount

/-- What the one reading computes becomes, by `φ`, what the other computes. -/
structure Reading.Becomes {α β : Type*} (A : Reading α) (B : Reading β) (φ : α → β) : Prop where
  leaf : ∀ ix, φ (A.leaf ix) = B.leaf ix
  and : ∀ xs, φ (A.and xs) = B.and (xs.map φ)
  or : ∀ xs, φ (A.or xs) = B.or (xs.map φ)
  top : φ A.top = B.top
  bottom : φ A.bottom = B.bottom

namespace Node

theorem read_becomes {α β : Type*} {A : Reading α} {B : Reading β} {φ : α → β}
    (h : A.Becomes B φ) (n : Node) : φ (n.read A) = n.read B := by
  induction n with
  | mk addr type ix children ih =>
    have hchildren : (children.map (read A)).map φ = children.map (read B) := by
      rw [List.map_map]
      exact List.map_congr_left ih
    cases type with
    | True => simpa [read] using h.top
    | False => simpa [read] using h.bottom
    | Leaf => simpa [read] using h.leaf ix
    | And =>
      rw [read_and A rfl, read_and B rfl, h.and]
      exact congrArg B.and hchildren
    | Or =>
      rw [read_or A rfl, read_or B rfl, h.or]
      exact congrArg B.or hchildren

theorem truth_becomes (σ : Nat → Bool) :
    (sumProduct fun ix => Truth.mk (σ ix)).Becomes (boolean σ) Truth.holds where
  leaf _ := rfl
  and xs := by
    show xs.prod.holds = (xs.map Truth.holds).all id
    rw [Truth.holds_prod, List.all_map]
    rfl
  or xs := by
    show xs.sum.holds = (xs.map Truth.holds).any id
    rw [Truth.holds_sum, List.any_map]
    rfl
  top := rfl
  bottom := rfl

theorem value_truth (σ : Nat → Bool) (n : Node) :
    (n.value fun ix => Truth.mk (σ ix)).holds = n.denote σ := read_becomes (truth_becomes σ) n

theorem cast_becomes (w : Nat → ℕ) :
    (sumProduct w).Becomes (sumProduct fun ix => (w ix : ℚ)) Nat.cast where
  leaf _ := rfl
  and := Nat.cast_list_prod
  or := Nat.cast_list_sum
  top := Nat.cast_one
  bottom := Nat.cast_zero

theorem nonzero_becomes (σ : Nat → Bool) :
    (sumProduct fun ix => indicator ℕ (σ ix)).Becomes (boolean σ) fun m => decide (m ≠ 0) where
  leaf ix := by
    show decide (indicator ℕ (σ ix) ≠ 0) = σ ix
    cases σ ix <;> rfl
  and xs := by
    show decide (xs.prod ≠ 0) = (xs.map _).all id
    rw [List.all_map, Bool.eq_iff_iff, decide_eq_true_iff, List.all_eq_true, Ne,
      List.prod_eq_zero_iff]
    exact ⟨fun h m hm => decide_eq_true fun h0 => h (h0 ▸ hm),
      fun h h0 => by simpa using h 0 h0⟩
  or xs := by
    show decide (xs.sum ≠ 0) = (xs.map _).any id
    rw [List.any_map, Bool.eq_iff_iff, decide_eq_true_iff, List.any_eq_true, Ne,
      List.sum_eq_zero_iff]
    push Not
    exact exists_congr fun m => and_congr_right fun _ => decide_eq_true_iff.symm
  top := rfl
  bottom := rfl

/-- With weights zero and one the value exceeds one half where the circuit is true, whether or not
it is deterministic. -/
theorem threshold_value (σ : Nat → Bool) (n : Node) :
    decide (1 / 2 < n.value fun ix => indicator ℚ (σ ix)) = n.denote σ := by
  have hcast : ∀ b, ((indicator ℕ b : ℕ) : ℚ) = indicator ℚ b := by
    intro b
    cases b <;> simp [indicator]
  have hvalue := read_becomes (cast_becomes fun ix => indicator ℕ (σ ix)) n
  simp only [hcast] at hvalue
  have hdenote := read_becomes (nonzero_becomes σ) n
  rw [value, denote, ← hvalue, ← hdenote, decide_eq_decide]
  generalize n.read (sumProduct fun ix => indicator ℕ (σ ix)) = m
  cases m with
  | zero => norm_num
  | succ m =>
    refine iff_of_true ?_ (Nat.succ_ne_zero m)
    push_cast
    linarith [(Nat.cast_nonneg m : (0 : ℚ) ≤ m)]

end Node

/-- A klay that denotes has the weights of one assignment among those it evaluates with. -/
theorem evaluates_truth {K : Klay} {σ : Nat → Bool} {truth : Int → Bool}
    (hK : K.Evaluates (Node.boolean σ) truth) :
    K.Evaluates (Node.sumProduct fun ix => Truth.mk (σ ix)) fun l => ⟨truth l⟩ where
  trueNode := Truth.ext ((Node.value_truth σ _).trans hK.trueNode)
  falseNode := Truth.ext ((Node.value_truth σ _).trans hK.falseNode)
  literalNode l := Truth.ext ((Node.value_truth σ _).trans (hK.literalNode l))
  andNode xs := by
    refine Truth.ext ((Node.value_truth σ _).trans ((denote_and hK xs).trans ?_))
    refine Eq.trans ?_ (Truth.holds_prod _).symm
    rw [List.all_map]
    exact congrArg xs.all (funext fun n => (Node.value_truth σ n).symm)
  orNode xs := by
    refine Truth.ext ((Node.value_truth σ _).trans ((denote_or hK xs).trans ?_))
    refine Eq.trans ?_ (Truth.holds_sum _).symm
    rw [List.any_map]
    exact congrArg xs.any (funext fun n => (Node.value_truth σ n).symm)

end Kompyle
