import Kompyle.KlayNode

namespace Kompyle

/-- The part of klay::Circuit the program calls. klay is not part of the repository: these
are parameters, and what a result needs of them is one of the predicates below. -/
structure Klay where
  trueNode : Node
  falseNode : Node
  literalNode : Int → Node
  andNode : List Node → Node
  orNode : List Node → Node
  /-- `klay::Lit::fromInt(l).internal_val()`. -/
  internalVal : Int → Nat

def literalHolds (τ : Nat → Bool) (l : Int) : Bool := τ l.natAbs == decide (0 ≤ l)

namespace Klay

variable {α : Type*}

/-- The constructors evaluate to the operations of the reading. -/
structure Evaluates (K : Klay) (A : Reading α) (lit : Int → α) : Prop where
  trueNode : K.trueNode.read A = A.top
  falseNode : K.falseNode.read A = A.bottom
  literalNode : ∀ l, (K.literalNode l).read A = lit l
  andNode : ∀ xs, (K.andNode xs).read A = A.and (xs.map (·.read A))
  orNode : ∀ xs, (K.orNode xs).read A = A.or (xs.map (·.read A))

/-- No constructor introduces a leaf that is not below a child. -/
structure KeepsLeaves (K : Klay) : Prop where
  trueNode : K.trueNode.leaves = ∅
  falseNode : K.falseNode.leaves = ∅
  literalNode : ∀ l, (K.literalNode l).leaves ⊆ {K.internalVal l}
  andNode : ∀ xs, ∀ ix ∈ (K.andNode xs).leaves, ∃ x ∈ xs, ix ∈ x.leaves
  orNode : ∀ xs, ∀ ix ∈ (K.orNode xs).leaves, ∃ x ∈ xs, ix ∈ x.leaves

/-- The nodes that the circuit has handed out: what it builds over such nodes is one again,
and two of them are at different addresses. -/
structure Allocates (K : Klay) (alloc : Node → Prop) : Prop where
  address : ∀ m n, alloc m → alloc n → m.addr = n.addr → m = n
  children : ∀ n, alloc n → ∀ c ∈ n.children, alloc c
  trueNode : alloc K.trueNode
  falseNode : alloc K.falseNode
  literalNode : ∀ l, alloc (K.literalNode l)
  andNode : ∀ xs, (∀ x ∈ xs, alloc x) → alloc (K.andNode xs)
  orNode : ∀ xs, (∀ x ∈ xs, alloc x) → alloc (K.orNode xs)

/-- `n` is the node of the given type over exactly `ys`, in any order and with repetitions
dropped or not, or the one node there is in `ys`. -/
def Gathers (type : NodeType) (ys : List Node) (n : Node) : Prop :=
  ys ≠ [] ∧ ((n.type = type ∧ n.children.Subperm ys ∧ ys ⊆ n.children) ∨ ∀ y ∈ ys, y = n)

/-- An and is False if a child is, and otherwise drops its True children. -/
def AndOf (xs : List Node) (n : Node) : Prop :=
  ((∃ x ∈ xs, x.isFalse = true) ∧ n.isFalse = true) ∨
    (∀ x ∈ xs, x.isFalse = false) ∧
      (((∀ x ∈ xs, x.isTrue = true) ∧ n.isTrue = true) ∨
        Gathers .And (xs.filter fun x => !x.isTrue) n)

/-- An or drops its False children; it may be True if a child is. -/
def OrOf (xs : List Node) (n : Node) : Prop :=
  ((∀ x ∈ xs, x.isFalse = true) ∧ n.isFalse = true) ∨
    ((∃ x ∈ xs, x.isTrue = true) ∧ n.isTrue = true) ∨
      Gathers .Or (xs.filter fun x => !x.isFalse) n

/-- How the constructors simplify, and how literals are numbered: complementary literals, and
no others, have the same index up to the lowest bit. -/
structure Simplifies (K : Klay) : Prop where
  trueNode : K.trueNode.isTrue = true
  falseNode : K.falseNode.isFalse = true
  literalNode : ∀ l, (K.literalNode l).type = .Leaf ∧ (K.literalNode l).ix = K.internalVal l
  andNode : ∀ xs, AndOf xs (K.andNode xs)
  orNode : ∀ xs, OrOf xs (K.orNode xs)
  internalVal : ∀ l m, K.internalVal l / 2 = K.internalVal m / 2 ↔ l.natAbs = m.natAbs

end Klay

section

variable {K : Klay} {R : Type*} [CommSemiring R] {w : Nat → R} {W : Int → R} {σ : Nat → Bool}
  {truth : Int → Bool}

theorem value_and (hK : K.Evaluates (Node.sumProduct w) W) (xs : List Node) :
    (K.andNode xs).value w = (xs.map fun n => n.value w).prod := hK.andNode xs

theorem value_or (hK : K.Evaluates (Node.sumProduct w) W) (xs : List Node) :
    (K.orNode xs).value w = (xs.map fun n => n.value w).sum := hK.orNode xs

theorem value_literal (hK : K.Evaluates (Node.sumProduct w) W) (l : Int) :
    (K.literalNode l).value w = W l := hK.literalNode l

theorem value_trueNode (hK : K.Evaluates (Node.sumProduct w) W) : K.trueNode.value w = 1 :=
  hK.trueNode

theorem value_falseNode (hK : K.Evaluates (Node.sumProduct w) W) : K.falseNode.value w = 0 :=
  hK.falseNode

theorem denote_and (hK : K.Evaluates (Node.boolean σ) truth) (xs : List Node) :
    (K.andNode xs).denote σ = xs.all fun n => n.denote σ := by
  rw [Node.denote, hK.andNode]
  show (xs.map _).all id = _
  rw [List.all_map]
  rfl

theorem denote_or (hK : K.Evaluates (Node.boolean σ) truth) (xs : List Node) :
    (K.orNode xs).denote σ = xs.any fun n => n.denote σ := by
  rw [Node.denote, hK.orNode]
  show (xs.map _).any id = _
  rw [List.any_map]
  rfl

theorem denote_literal (hK : K.Evaluates (Node.boolean σ) truth) (l : Int) :
    (K.literalNode l).denote σ = truth l := hK.literalNode l

theorem denote_trueNode (hK : K.Evaluates (Node.boolean σ) truth) :
    K.trueNode.denote σ = true := hK.trueNode

theorem denote_falseNode (hK : K.Evaluates (Node.boolean σ) truth) :
    K.falseNode.denote σ = false := hK.falseNode

end

end Kompyle
