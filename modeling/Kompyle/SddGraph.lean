import Kompyle.KlayCircuit
import Mathlib.Logic.Relation

namespace Kompyle

/-- What a pysdd node answers: its kind, and its literal or its (prime, sub) elements, by id. -/
inductive SddNode
  | literal (l : Int)
  | true
  | false
  | decision (elements : List (Nat × Nat))
  deriving DecidableEq, Repr

def SddNode.children : SddNode → List Nat
  | .decision elements => elements.flatMap fun e => [e.1, e.2]
  | _ => []

/-- An SDD, by the ids of its nodes. The rank says that it has no cycle. -/
structure SddGraph where
  node : Nat → SddNode
  rank : Nat → Nat
  acyclic : ∀ id, ∀ c ∈ (node id).children, rank c < rank id

namespace SddGraph

variable (G : SddGraph)

theorem mem_children {elements : List (Nat × Nat)} {e : Nat × Nat} (he : e ∈ elements) :
    e.1 ∈ (SddNode.decision elements).children ∧ e.2 ∈ (SddNode.decision elements).children := by
  refine ⟨?_, ?_⟩ <;> exact List.mem_flatMap.mpr ⟨e, he, by simp⟩

def denote (τ : Nat → Bool) (id : Nat) : Bool :=
  match _h : G.node id with
  | .literal l => literalHolds τ l
  | .true => Bool.true
  | .false => Bool.false
  | .decision elements =>
    elements.attach.any fun e => denote τ e.1.1 && denote τ e.1.2
termination_by G.rank id
decreasing_by
  · exact G.acyclic id _ (by rw [_h]; exact (mem_children e.2).1)
  · exact G.acyclic id _ (by rw [_h]; exact (mem_children e.2).2)

variable {G}

theorem denote_literal {τ : Nat → Bool} {id : Nat} {l : Int} (h : G.node id = .literal l) :
    G.denote τ id = literalHolds τ l := by
  rw [denote]
  split <;> simp_all

theorem denote_true {τ : Nat → Bool} {id : Nat} (h : G.node id = .true) :
    G.denote τ id = Bool.true := by
  rw [denote]
  split <;> simp_all

theorem denote_false {τ : Nat → Bool} {id : Nat} (h : G.node id = .false) :
    G.denote τ id = Bool.false := by
  rw [denote]
  split <;> simp_all

theorem denote_decision {τ : Nat → Bool} {id : Nat} {elements : List (Nat × Nat)}
    (h : G.node id = .decision elements) :
    G.denote τ id = elements.any fun e => G.denote τ e.1 && G.denote τ e.2 := by
  rw [denote]
  split
  next l hl => simp [h] at hl
  next ht => simp [h] at ht
  next hf => simp [h] at hf
  next es hes =>
    have heq : elements = es := by simpa [h] using hes
    subst heq
    have hval : ∀ (e : Nat × Nat) (_ : e ∈ elements),
        (G.denote τ e.1 && G.denote τ e.2) = (G.denote τ e.1 && G.denote τ e.2) := fun _ _ => rfl
    rw [List.any_subtype hval, List.unattach_attach]

def IsChild (G : SddGraph) (c id : Nat) : Prop := c ∈ (G.node id).children

def Below (G : SddGraph) (m id : Nat) : Prop := Relation.ReflTransGen G.IsChild m id

theorem rank_le_of_below {m id : Nat} (h : G.Below m id) : G.rank m ≤ G.rank id := by
  induction h with
  | refl => exact Nat.le_refl _
  | tail _ hc ih =>
    have := G.acyclic _ _ hc
    omega

end SddGraph

end Kompyle
