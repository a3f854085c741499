import Kompyle.FieldRun

namespace Kompyle

open SemiringProgram

/-- The registers that the field operations reach from empty ones, where each operation is
allowed in the registers it finds. -/
inductive Reaches (K : Klay) (allowed : Regs FCircuit → FieldOp → Prop) : Regs FCircuit → Prop
  | empty : Reaches K allowed fun _ => none
  | step {s t : Regs FCircuit} {op : FieldOp} : Reaches K allowed s → allowed s op →
      fieldStep K s op = some t → Reaches K allowed t

section

variable {K : Klay} {alloc : Node → Prop} {allowed : Regs FCircuit → FieldOp → Prop}
  {P : FCircuit → Prop}

theorem Reaches.allRegs (hring : Simulates (FGenCircuit.impl K fun l =>
      some (FGenCircuit.litField K l)) forget fun x (_ : Unit) => P x)
    (hsub : ∀ s r a x y, allowed s (.subAssign r a) → s r = some x → s a = some y → P x → P y →
      P (x.subAssign y))
    (hdiv : ∀ s r a x y, allowed s (.divAssign r a) → s r = some x → s a = some y → P x → P y →
      P (x.divAssign K y)) {s : Regs FCircuit} (h : Reaches K allowed s) : AllRegs P s := by
  induction h with
  | empty => exact allRegs_empty
  | @step s t op _ hop hstep ih =>
    cases op with
    | ring op => exact hring.step_allRegs ih hstep
    | subAssign r a =>
      obtain ⟨x, hx, hstep⟩ := Option.bind_eq_some_iff.mp hstep
      obtain ⟨y, hy, rfl⟩ := Option.map_eq_some_iff.mp hstep
      exact ih.put r (hsub s r a x y hop hx hy (ih r x hx) (ih a y hy))
    | divAssign r a =>
      obtain ⟨x, y, hx, hy, -, rfl⟩ := divAssign_cases hstep
      exact ih.put r (hdiv s r a x y hop hx hy (ih r x hx) (ih a y hy))

/-- The invariant of a value: it is a circuit the manager has handed out, with no leaf that the
literal set does not have. -/
structure Held (alloc : Node → Prop) (x : FCircuit) : Prop where
  node : alloc x.node
  covers : x.node.leaves ⊆ x.lits

theorem covers_pair {x y : FCircuit} (hx : Held alloc x) (hy : Held alloc y) {n : Node}
    (hn : ∀ ix ∈ n.leaves, ∃ m ∈ [x.node, y.node], ix ∈ m.leaves) :
    n.leaves ⊆ x.lits ∪ y.lits := by
  intro ix hix
  obtain ⟨m, hm, hixm⟩ := hn ix hix
  simp only [List.mem_cons, List.not_mem_nil, or_false] at hm
  rcases hm with rfl | rfl
  · exact Finset.mem_union_left _ (hx.covers hixm)
  · exact Finset.mem_union_right _ (hy.covers hixm)

theorem Held.add {x y : FCircuit} (hK : K.Allocates alloc) (hL : K.KeepsLeaves)
    (hx : Held alloc x) (hy : Held alloc y) : Held alloc (x.add K y) :=
  ⟨hK.add hx.node hy.node, covers_pair hx hy (hL.orNode _)⟩

theorem Held.mul {x y : FCircuit} (hK : K.Allocates alloc) (hL : K.KeepsLeaves)
    (hx : Held alloc x) (hy : Held alloc y) : Held alloc (x.mulAssign K y) :=
  ⟨hK.mulAssign hx.node hy.node, covers_pair hx hy (hL.andNode _)⟩

theorem held_zero (hK : K.Allocates alloc) (hL : K.KeepsLeaves) :
    Held alloc (FGenCircuit.zero K) :=
  ⟨hK.falseNode, hL.falseNode.subset⟩

theorem held_one (hK : K.Allocates alloc) (hL : K.KeepsLeaves) :
    Held alloc (FGenCircuit.one K) :=
  ⟨hK.trueNode, hL.trueNode.subset⟩

theorem ring_keeps_held (hK : K.Allocates alloc) (hL : K.KeepsLeaves) :
    Simulates (FGenCircuit.impl K fun l => some (FGenCircuit.litField K l)) forget
      fun x (_ : Unit) => Held alloc x := by
  apply Simulates.of_plain impl_plain forget_plain (held_zero hK hL) (held_one hK hL)
  · intro l x hx
    obtain rfl := Option.some.inj hx
    exact ⟨(), rfl, hK.literalNode l, hL.literalNode l⟩
  · exact fun _ _ _ _ hx hy => hx.add hK hL hy
  · exact fun _ _ _ _ hx hy => hx.mul hK hL hy

theorem divAssign_cleared (hK : K.Allocates alloc) (hL : K.KeepsLeaves) {x : FCircuit}
    (hx : alloc x.node) (y : FCircuit) : Cleared y.lits x.node (x.divAssign K y).node :=
  substituteTrue_rel hK.addressed (substitutes_cleared hL) hx

theorem Held.div {x : FCircuit} (hK : K.Allocates alloc) (hL : K.KeepsLeaves)
    (hx : Held alloc x) (y : FCircuit) : Held alloc (x.divAssign K y) := by
  refine ⟨hK.divAssign hx.node y, fun ix hix => ?_⟩
  obtain ⟨hleaf, hpos, hneg⟩ := divAssign_cleared hK hL hx.node y ix hix
  exact Finset.mem_filter.mpr ⟨hx.covers hleaf, hpos, hneg⟩

/-- What is left of a value that was divided has neither polarity of a literal of the divisor. -/
theorem divAssign_disjoint (hK : K.Allocates alloc) (hL : K.KeepsLeaves) {x : FCircuit}
    (hx : alloc x.node) (y : FCircuit) {ix l : Nat} (hl : l ∈ y.lits) (hvar : ix / 2 = l / 2) :
    ix ∉ (x.divAssign K y).node.leaves ∧ ix ∉ (x.divAssign K y).lits := by
  have hmem : ix ∈ y.lits ∨ ix ^^^ 1 ∈ y.lits := by
    rcases eq_or_xor_of_div_two hvar with rfl | rfl
    · exact Or.inl hl
    · exact Or.inr hl
  constructor
  · intro hix
    obtain ⟨-, hpos, hneg⟩ := divAssign_cleared hK hL hx y ix hix
    exact hmem.elim hpos hneg
  · intro hix
    obtain ⟨-, hpos, hneg⟩ := Finset.mem_filter.mp hix
    exact hmem.elim hpos hneg

/-- In all registers that can be reached the literal set covers the circuit, and a division
leaves neither polarity of a literal of the divisor in the circuit or in the set. -/
theorem lits_cover (hK : K.Allocates alloc) (hL : K.KeepsLeaves) {s : Regs FCircuit}
    (h : Reaches K DividesDefined s) :
    (∀ r x, s r = some x → x.node.leaves ⊆ x.lits) ∧
    ∀ r a t x y, DividesDefined s (.divAssign r a) → fieldStep K s (.divAssign r a) = some t →
      s a = some y → t r = some x →
      ∀ l ∈ y.lits, ∀ ix, ix / 2 = l / 2 → ix ∉ x.node.leaves ∧ ix ∉ x.lits := by
  have hheld : AllRegs (Held alloc) s := by
    apply h.allRegs (ring_keeps_held hK hL)
    · intro s r a x y _ _ _ hx _
      exact ⟨hx.node, hx.covers⟩
    · intro s r a x y _ _ _ hx _
      exact hx.div hK hL y
  refine ⟨fun r x hx => (hheld r x hx).covers, ?_⟩
  intro r a t z y _ hstep hy hz l hl ix hvar
  obtain ⟨x, y', hx, hy', -, rfl⟩ := divAssign_cases hstep
  obtain rfl := Option.some.inj (hy.symm.trans hy')
  have hz' : x.divAssign K y = z := by simpa [Regs.put] using hz
  rw [← hz']
  exact divAssign_disjoint hK hL (hheld r x hx).node y hl hvar

end

def oneLiteral : Regs FCircuit :=
  Regs.put (fun _ => none) 0 (FGenCircuit.litField Klay.reference 1)

def twoLiterals : Regs FCircuit := oneLiteral.put 1 (FGenCircuit.litField Klay.reference (-2))

/-- Two literals multiplied in the first register, and the second of them. -/
def productRegs : Regs FCircuit :=
  twoLiterals.put 0 ((FGenCircuit.litField Klay.reference 1).mulAssign Klay.reference
    (FGenCircuit.litField Klay.reference (-2)))

theorem productRegs_reached : Reaches Klay.reference DividesDefined productRegs := by
  have h₁ : Reaches Klay.reference DividesDefined oneLiteral :=
    .step .empty (show DividesDefined _ (.ring (.lit 0 1)) from trivial) rfl
  have h₂ : Reaches Klay.reference DividesDefined twoLiterals :=
    .step h₁ (show DividesDefined _ (.ring (.lit 1 (-2))) from trivial) rfl
  exact .step h₂ (show DividesDefined _ (.ring (.mulAssign 0 1)) from trivial) rfl

theorem productRegs_cover :
    (∀ r x, productRegs r = some x → x.node.leaves ⊆ x.lits) ∧
    ∀ t x, fieldStep Klay.reference productRegs (.divAssign 0 1) = some t → t 0 = some x →
      ∀ ix, ix / 2 = 5 / 2 → ix ∉ x.node.leaves ∧ ix ∉ x.lits := by
  obtain ⟨hcover, hdiv⟩ := lits_cover Klay.reference_allocates
    Klay.reference_simplifies.keepsLeaves productRegs_reached
  refine ⟨hcover, fun t x hstep hx => ?_⟩
  refine hdiv 0 1 t x (FGenCircuit.litField Klay.reference (-2)) ⟨by decide, ?_⟩ hstep rfl hx 5
    (by decide)
  intro y hy
  obtain rfl := Option.some.inj hy
  decide

end Kompyle
