import Kompyle.CountField
import Kompyle.FieldCircuit
import Kompyle.KlayReference

namespace Kompyle

open SemiringProgram

/-- When the constructors return the False node. -/
structure Klay.TestsZero (K : Klay) : Prop where
  trueNode : K.trueNode.isFalse = false
  falseNode : K.falseNode.isFalse = true
  literalNode : ∀ l, (K.literalNode l).isFalse = false
  andNode : ∀ xs, (K.andNode xs).isFalse = true ↔ ∃ x ∈ xs, x.isFalse = true
  orNode : ∀ xs, (K.orNode xs).isFalse = true ↔ ∀ x ∈ xs, x.isFalse = true

theorem Klay.Gathers.isFalse {type : NodeType} {ys : List Node} {n : Node}
    (h : Klay.Gathers type ys n) (htype : type ≠ .False) (hys : ∀ y ∈ ys, y.isFalse = false) :
    n.isFalse = false := by
  obtain ⟨hne, ⟨ht, -⟩ | hall⟩ := h
  · have hn : n.type ≠ .False := ht ▸ htype
    simp [Node.isFalse, hn]
  · obtain ⟨y, hy⟩ := List.exists_mem_of_ne_nil ys hne
    have hyn : y = n := hall y hy
    exact hyn ▸ hys y hy

theorem Node.not_isFalse_of_isTrue {n : Node} (h : n.isTrue = true) : n.isFalse = false := by
  have ht : n.type = .True := by simpa [Node.isTrue] using h
  simp [Node.isFalse, ht]

/-- A klay that simplifies as it is assumed to returns the False node only where it has to. -/
theorem Klay.Simplifies.testsZero {K : Klay} (hK : K.Simplifies) : K.TestsZero where
  trueNode := Node.not_isFalse_of_isTrue hK.trueNode
  falseNode := hK.falseNode
  literalNode l := by
    have ht := (hK.literalNode l).1
    simp [Node.isFalse, ht]
  andNode xs := by
    rcases hK.andNode xs with ⟨hchild, hn⟩ | ⟨hnone, hn⟩
    · exact iff_of_true hn hchild
    · have hxs : ¬ ∃ x ∈ xs, x.isFalse = true := by
        rintro ⟨x, hx, hf⟩
        have hnot := hnone x hx
        rw [hf] at hnot
        cases hnot
      rw [← Bool.not_eq_false, not_iff_comm]
      refine iff_of_true hxs ?_
      rcases hn with ⟨-, htrue⟩ | hgathers
      · exact Node.not_isFalse_of_isTrue htrue
      · exact hgathers.isFalse (by decide) fun y hy => hnone y (List.mem_of_mem_filter hy)
  orNode xs := by
    rcases hK.orNode xs with ⟨hall, hn⟩ | ⟨⟨x, hx, htrue⟩, hn⟩ | hgathers
    · exact iff_of_true hn hall
    · have hx' := Node.not_isFalse_of_isTrue htrue
      have hn' := Node.not_isFalse_of_isTrue hn
      refine iff_of_false (by simp [hn']) fun hall => ?_
      rw [hall x hx] at hx'
      cases hx'
    · have hlive : ∀ y ∈ xs.filter fun x => !x.isFalse, y.isFalse = false := by
        intro y hy
        simpa using (List.mem_filter.mp hy).2
      have hn' := hgathers.isFalse (by decide) hlive
      obtain ⟨y, hy⟩ := List.exists_mem_of_ne_nil _ hgathers.1
      refine iff_of_false (by simp [hn']) fun hall => ?_
      have hy' := hlive y hy
      rw [hall y (List.mem_of_mem_filter hy)] at hy'
      cases hy'

/-- The solver cannot tell two values apart by count or by the zero test. -/
structure SameAnswers (x : FCircuit) (y : FCount) : Prop where
  count : x.val = y.val
  zero : x.isZero = y.isZero

/-- `SameAnswers` and the sign that keeps sums from cancelling. -/
structure InStep (x : FCircuit) (y : FCount) : Prop where
  count : x.val = y.val
  nonneg : 0 ≤ y.val
  zero : x.node.isFalse = true ↔ y.val = 0

theorem InStep.sameAnswers {x : FCircuit} {y : FCount} (h : InStep x y) : SameAnswers x y where
  count := h.count
  zero := by
    rw [Bool.eq_iff_iff]
    simpa [FCircuit.isZero, FCount.isZero] using h.zero

section

variable {K : Klay}

theorem inStep_zero (hK : K.TestsZero) : InStep (FGenCircuit.zero K) FGenCount.zero :=
  ⟨rfl, le_refl 0, iff_of_true hK.falseNode rfl⟩

theorem inStep_one {n : Node} (h : n.isFalse = false) {lits : Finset Nat} :
    InStep ⟨n, 1, lits⟩ FGenCount.one :=
  ⟨rfl, Int.one_nonneg, by simp [h, FGenCount.one]⟩

theorem inStep_add (hK : K.TestsZero) {x x' : FCircuit} {y y' : FCount} (h : InStep x y)
    (h' : InStep x' y') : InStep (x.add K x') (y.add y') := by
  have hy := h.nonneg
  have hy' := h'.nonneg
  refine ⟨congrArg₂ (· + ·) h.count h'.count, Int.add_nonneg hy hy', ?_⟩
  show (K.orNode [x.node, x'.node]).isFalse = true ↔ y.val + y'.val = 0
  rw [hK.orNode]
  simp only [List.mem_cons, List.not_mem_nil, or_false, forall_eq_or_imp, forall_eq, h.zero,
    h'.zero]
  omega

theorem inStep_mul (hK : K.TestsZero) {x x' : FCircuit} {y y' : FCount} (h : InStep x y)
    (h' : InStep x' y') : InStep (x.mulAssign K x') (y.mulAssign y') := by
  refine ⟨congrArg₂ (· * ·) h.count h'.count, Int.mul_nonneg h.nonneg h'.nonneg, ?_⟩
  show (K.andNode [x.node, x'.node]).isFalse = true ↔ y.val * y'.val = 0
  rw [hK.andNode, Int.mul_eq_zero]
  simp only [List.mem_cons, List.not_mem_nil, or_false, exists_eq_or_imp, exists_eq_left, h.zero,
    h'.zero]

/-- The circuit-valued field, with literals for weights. -/
def circuitImpl (K : Klay) : Impl Int FCircuit :=
  FGenCircuit.impl K fun l => some (FGenCircuit.litField K l)

/-- The integer field, where every literal weighs one. -/
def countImpl : Impl Int FCount := FGenCount.impl fun _ => some FGenCount.one

theorem circuit_simulates_count (hK : K.TestsZero) :
    Simulates (circuitImpl K) countImpl InStep := by
  apply Simulates.of_plain impl_plain FGenCount.impl_plain (inStep_zero hK)
    (inStep_one hK.trueNode)
  · intro l x hx
    obtain rfl := Option.some.inj hx
    exact ⟨_, rfl, inStep_one (hK.literalNode l)⟩
  · exact fun _ _ _ _ h h' => inStep_add hK h h'
  · exact fun _ _ _ _ h h' => inStep_mul hK h h'

theorem count_simulates_circuit (hK : K.TestsZero) :
    Simulates countImpl (circuitImpl K) fun y x => InStep x y := by
  refine (circuit_simulates_count hK).flip fun l y hy => ?_
  obtain rfl := Option.some.inj hy
  exact ⟨_, rfl, inStep_one (hK.literalNode l)⟩

/-- The same registers are in use, with values the solver cannot tell apart, alone or in pairs. -/
structure Lockstep (s : Regs FCircuit) (t : Regs FCount) : Prop where
  registers : ∀ r, Option.Rel SameAnswers (s r) (t r)
  largerThan : ∀ a b x x' y y', s a = some x → s b = some x' → t a = some y → t b = some y' →
    FGenCircuit.largerThan x x' = FGenCount.largerThan y y'

theorem lockstep_of_inStep {s : Regs FCircuit} {t : Regs FCount}
    (h : ∀ r, Option.Rel InStep (s r) (t r)) : Lockstep s t where
  registers r := optionRel_mono (fun _ _ => InStep.sameAnswers) (h r)
  largerThan a b x x' y y' hx hx' hy hy' := by
    have ha := h a
    have hb := h b
    rw [hx, hy] at ha
    rw [hx', hy'] at hb
    obtain ⟨ha⟩ := ha
    obtain ⟨hb⟩ := hb
    unfold FGenCircuit.largerThan FGenCount.largerThan
    rw [ha.count, hb.count]

/-- After every step of every program, compiling and counting are in lockstep, or neither has
run. -/
theorem fields_lockstep (hK : K.TestsZero) (prog : List (Op Int)) (k : Nat) :
    Option.Rel Lockstep (run (circuitImpl K) (prog.take k) fun _ => none)
      (run countImpl (prog.take k) fun _ => none) := by
  refine optionRel_mono (fun _ _ => lockstep_of_inStep) ?_
  apply (circuit_simulates_count hK).run_optionRel (count_simulates_circuit hK)
  · intro r x hx
    cases hx
  · intro r y hy
    cases hy

end

/-- A sum of literals is squared, then cancelled by a product with zero. -/
def squareOps : List (Op Int) :=
  [.lit 0 1, .lit 1 (-2), .add 2 0 1, .mulAssign 2 2, .zero 0, .mulAssign 2 0, .setOne 1]

theorem squareOps_lockstep :
    Option.Rel Lockstep (run (circuitImpl Klay.reference) (squareOps.take 6) fun _ => none)
      (run countImpl (squareOps.take 6) fun _ => none) ∧
    (run (circuitImpl Klay.reference) (squareOps.take 6) fun _ => none).isSome = true ∧
    (run countImpl (squareOps.take 6) fun _ => none).isSome = true :=
  ⟨fields_lockstep Klay.reference_simplifies.testsZero squareOps 6, rfl, rfl⟩

end Kompyle
