import Kompyle.KlayCircuit
import Kompyle.SemiringProgram
import Mathlib.Algebra.Ring.Int.Defs

namespace Kompyle

/-- A value of the circuit-valued field. The circuit it points to is the parameter `K` of the
operations. -/
structure FCircuit where
  node : Node
  val : Int
  lits : Finset Nat

namespace FCircuit

variable (K : Klay)

def dup (x : FCircuit) : FCircuit := ⟨x.node, x.val, x.lits⟩

def add (x o : FCircuit) : FCircuit :=
  ⟨K.orNode [x.node, o.node], x.val + o.val, x.lits ∪ o.lits⟩

/-- `operator+=`. -/
def addAssign (x o : FCircuit) : FCircuit :=
  ⟨K.orNode [x.node, o.node], x.val + o.val, x.lits ∪ o.lits⟩

/-- `operator*=`. -/
def mulAssign (x o : FCircuit) : FCircuit :=
  ⟨K.andNode [x.node, o.node], x.val * o.val, x.lits ∪ o.lits⟩

/-- `operator=`. -/
def assign (_ o : FCircuit) : FCircuit := ⟨o.node, o.val, o.lits⟩

def setZero (_ : FCircuit) : FCircuit := ⟨K.falseNode, 0, ∅⟩

def setOne (_ : FCircuit) : FCircuit := ⟨K.trueNode, 1, ∅⟩

def isZero (x : FCircuit) : Bool := x.node.isFalse

end FCircuit

namespace FGenCircuit

variable (K : Klay)

def litField (l : Int) : FCircuit := ⟨K.literalNode l, 1, {K.internalVal l}⟩

def zero : FCircuit := ⟨K.falseNode, 0, ∅⟩

def one : FCircuit := ⟨K.trueNode, 1, ∅⟩

def impl {L : Type*} (lit : L → Option FCircuit) : SemiringProgram.Impl L FCircuit where
  zero := zero K
  one := one K
  lit := lit
  dup := FCircuit.dup
  add := FCircuit.add K
  addAssign := FCircuit.addAssign K
  mulAssign := FCircuit.mulAssign K
  assign := FCircuit.assign
  setZero := FCircuit.setZero K
  setOne := FCircuit.setOne K

def largerThan (a b : FCircuit) : Bool := a.val > b.val

end FGenCircuit

section

variable {K : Klay} {L : Type*} {lit : L → Option FCircuit}

theorem impl_plain : (FGenCircuit.impl K lit).Plain :=
  ⟨fun _ => rfl, fun _ _ => rfl, fun _ _ => rfl, fun _ => rfl, fun _ => rfl⟩

/-- The node of a field value is true exactly where the value is not zero, for weights that are
zero or not as the literals are false or true. -/
theorem impl_simulates_denote {σ : Nat → Bool} {truth : Int → Bool}
    (hK : K.Evaluates (Node.boolean σ) truth) {ω : L → ℕ}
    (hlit : ∀ l x, lit l = some x → (x.node.denote σ = true ↔ ω l ≠ 0)) :
    SemiringProgram.Simulates (FGenCircuit.impl K lit) (SemiringProgram.semiring ω)
      fun x m => (x.node.denote σ = true ↔ m ≠ 0) := by
  have hfalse : K.falseNode.denote σ = true ↔ (0 : ℕ) ≠ 0 := by
    simp [denote_falseNode hK]
  have htrue : K.trueNode.denote σ = true ↔ (1 : ℕ) ≠ 0 := by
    simp [denote_trueNode hK]
  have hor : ∀ (x : FCircuit) (m : ℕ) (x' : FCircuit) (m' : ℕ),
      (x.node.denote σ = true ↔ m ≠ 0) → (x'.node.denote σ = true ↔ m' ≠ 0) →
        ((K.orNode [x.node, x'.node]).denote σ = true ↔ m + m' ≠ 0) := by
    intro x m x' m' h h'
    rw [denote_or hK, List.any_eq_true]
    simp only [List.mem_cons, List.not_mem_nil, or_false, exists_eq_or_imp, exists_eq_left, h, h']
    omega
  have hand : ∀ (x : FCircuit) (m : ℕ) (x' : FCircuit) (m' : ℕ),
      (x.node.denote σ = true ↔ m ≠ 0) → (x'.node.denote σ = true ↔ m' ≠ 0) →
        ((K.andNode [x.node, x'.node]).denote σ = true ↔ m * m' ≠ 0) := by
    intro x m x' m' h h'
    rw [denote_and hK, List.all_eq_true, Nat.mul_ne_zero_iff]
    simp only [List.mem_cons, List.not_mem_nil, or_false, forall_eq_or_imp, forall_eq, h, h']
  exact .of_plain impl_plain (SemiringProgram.semiring_plain ω) hfalse htrue
    (fun l x hx => ⟨ω l, rfl, hlit l x hx⟩) hor hand

theorem impl_simulates_count {ω : L → Int} (hlit : ∀ l x, lit l = some x → x.val = ω l) :
    SemiringProgram.Simulates (FGenCircuit.impl K lit) (SemiringProgram.semiring ω)
      fun x m => x.val = m :=
  .of_plain impl_plain (SemiringProgram.semiring_plain ω) rfl rfl
    (fun l x hx => ⟨ω l, rfl, hlit l x hx⟩) (fun _ _ _ _ h h' => congrArg₂ (· + ·) h h')
    (fun _ _ _ _ h h' => congrArg₂ (· * ·) h h')

end

end Kompyle
