import Kompyle.WeightedCount

namespace Kompyle

open WeightedCount

inductive NodeType
  | True | False | Leaf | And | Or
  deriving DecidableEq, Repr

/-- What the program reads of a klay::Node: its address and the fields behind it. A shared
node occurs in the term once for each path to it, always with the same address. -/
inductive Node
  | mk (addr : Nat) (type : NodeType) (ix : Nat) (children : List Node)

namespace Node

def addr : Node → Nat | mk addr _ _ _ => addr

def type : Node → NodeType | mk _ type _ _ => type

def ix : Node → Nat | mk _ _ ix _ => ix

def children : Node → List Node | mk _ _ _ children => children

def isTrue (n : Node) : Bool := n.type = .True

def isFalse (n : Node) : Bool := n.type = .False

@[induction_eliminator]
theorem induction {P : Node → Prop}
    (mk : ∀ addr type ix children, (∀ c ∈ children, P c) → P (.mk addr type ix children))
    (n : Node) : P n := by
  refine @Node.rec P (fun cs => ∀ c ∈ cs, P c) mk ?_ ?_ n
  · simp
  · intro c cs hc hcs x hx
    rcases List.mem_cons.mp hx with rfl | hx
    · exact hc
    · exact hcs x hx

end Node

/-- One way of evaluating a circuit: what each kind of node computes from its children. -/
structure Reading (α : Type*) where
  leaf : Nat → α
  and : List α → α
  or : List α → α
  top : α
  bottom : α

namespace Node

variable {α β : Type*}

mutual

def read (A : Reading α) : Node → α
  | mk _ .True _ _ => A.top
  | mk _ .False _ _ => A.bottom
  | mk _ .Leaf ix _ => A.leaf ix
  | mk _ .And _ children => A.and (readAll A children)
  | mk _ .Or _ children => A.or (readAll A children)

def readAll (A : Reading α) : List Node → List α
  | [] => []
  | n :: ns => n.read A :: readAll A ns

end

theorem readAll_eq_map (A : Reading α) (ns : List Node) : readAll A ns = ns.map (read A) := by
  induction ns with
  | nil => rfl
  | cons n ns ih => simp [readAll, ih]

theorem read_true {n : Node} (A : Reading α) (h : n.isTrue = true) : n.read A = A.top := by
  obtain ⟨a, t, i, cs⟩ := n
  cases t <;> simp_all [isTrue, type, read]

theorem read_false {n : Node} (A : Reading α) (h : n.isFalse = true) : n.read A = A.bottom := by
  obtain ⟨a, t, i, cs⟩ := n
  cases t <;> simp_all [isFalse, type, read]

theorem read_leaf {n : Node} (A : Reading α) (h : n.type = .Leaf) : n.read A = A.leaf n.ix := by
  obtain ⟨a, t, i, cs⟩ := n
  cases h
  simp [read, ix]

theorem read_and {n : Node} (A : Reading α) (h : n.type = .And) :
    n.read A = A.and (n.children.map (read A)) := by
  obtain ⟨a, t, i, cs⟩ := n
  cases h
  simp [read, readAll_eq_map, children]

theorem read_or {n : Node} (A : Reading α) (h : n.type = .Or) :
    n.read A = A.or (n.children.map (read A)) := by
  obtain ⟨a, t, i, cs⟩ := n
  cases h
  simp [read, readAll_eq_map, children]

def sumProduct {R : Type*} [CommSemiring R] (w : Nat → R) : Reading R :=
  ⟨w, List.prod, List.sum, 1, 0⟩

def value {R : Type*} [CommSemiring R] (w : Nat → R) (n : Node) : R := n.read (sumProduct w)

def boolean (σ : Nat → Bool) : Reading Bool := ⟨σ, (·.all id), (·.any id), true, false⟩

def denote (σ : Nat → Bool) (n : Node) : Bool := n.read (boolean σ)

/-- The indices of the leaves that can be reached from the node. -/
def leafReading : Reading (Finset Nat) := ⟨fun ix => {ix}, unions, unions, ∅, ∅⟩

def leaves (n : Node) : Finset Nat := n.read leafReading

theorem read_congr {A B : Reading α} (hand : A.and = B.and) (hor : A.or = B.or)
    (htop : A.top = B.top) (hbot : A.bottom = B.bottom) (n : Node)
    (h : ∀ ix ∈ n.leaves, A.leaf ix = B.leaf ix) : n.read A = n.read B := by
  induction n with
  | mk addr type ix children ih =>
    have hsub : ∀ c ∈ children, c.leaves ⊆ unions (children.map leaves) :=
      fun c hc i hi => mem_unions.mpr ⟨c.leaves, List.mem_map_of_mem hc, hi⟩
    cases type with
    | True => simpa [read] using htop
    | False => simpa [read] using hbot
    | Leaf => simpa [read] using h ix (by simp [leaves, read, leafReading])
    | And =>
      have hm : children.map (read A) = children.map (read B) := by
        refine List.map_congr_left fun c hc => ih c hc fun i hi => h i ?_
        rw [leaves, read_and _ rfl]
        exact hsub c hc hi
      rw [read_and A rfl, read_and B rfl]
      simp only [Node.children, hand, hm]
    | Or =>
      have hm : children.map (read A) = children.map (read B) := by
        refine List.map_congr_left fun c hc => ih c hc fun i hi => h i ?_
        rw [leaves, read_or _ rfl]
        exact hsub c hc hi
      rw [read_or A rfl, read_or B rfl]
      simp only [Node.children, hor, hm]

theorem value_congr {R : Type*} [CommSemiring R] {w w' : Nat → R} {n : Node}
    (h : ∀ ix ∈ n.leaves, w ix = w' ix) : n.value w = n.value w' :=
  read_congr (A := sumProduct w) (B := sumProduct w') rfl rfl rfl rfl n h

end Node

end Kompyle
