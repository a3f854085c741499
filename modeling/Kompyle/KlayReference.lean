import Kompyle.NodeStructure
import Mathlib.Logic.Encodable.Basic
import Mathlib.Logic.Equiv.List

namespace Kompyle

open WeightedCount

/-- The laws under which dropping constants does not change what an and or an or reads. -/
structure Reading.Absorbs {α : Type*} (A : Reading α) : Prop where
  and_nil : A.and [] = A.top
  and_single : ∀ x, A.and [x] = x
  and_top : ∀ xs, A.and (A.top :: xs) = A.and xs
  and_congr : ∀ x xs ys, A.and xs = A.and ys → A.and (x :: xs) = A.and (x :: ys)
  and_bottom : ∀ xs, A.bottom ∈ xs → A.and xs = A.bottom
  or_nil : A.or [] = A.bottom
  or_single : ∀ x, A.or [x] = x
  or_bottom : ∀ xs, A.or (A.bottom :: xs) = A.or xs
  or_congr : ∀ x xs ys, A.or xs = A.or ys → A.or (x :: xs) = A.or (x :: ys)

theorem sumProduct_absorbs {R : Type*} [CommSemiring R] (w : Nat → R) :
    (Node.sumProduct w).Absorbs where
  and_nil := rfl
  and_single := by simp [Node.sumProduct]
  and_top := by simp [Node.sumProduct]
  and_congr x xs ys h := by simp_all [Node.sumProduct]
  and_bottom xs h := List.prod_eq_zero h
  or_nil := rfl
  or_single := by simp [Node.sumProduct]
  or_bottom := by simp [Node.sumProduct]
  or_congr x xs ys h := by simp_all [Node.sumProduct]

theorem boolean_absorbs (σ : Nat → Bool) : (Node.boolean σ).Absorbs where
  and_nil := rfl
  and_single := by simp [Node.boolean]
  and_top := by simp [Node.boolean]
  and_congr x xs ys h := by simp_all [Node.boolean]
  and_bottom xs h := by simpa [Node.boolean] using h
  or_nil := rfl
  or_single := by simp [Node.boolean]
  or_bottom := by simp [Node.boolean]
  or_congr x xs ys h := by simp_all [Node.boolean]

namespace Klay

def typeCode : NodeType → Nat
  | .True => 0
  | .False => 1
  | .Leaf => 2
  | .And => 3
  | .Or => 4

/-- An address that determines the contents of the node. -/
def make (type : NodeType) (ix : Nat) (children : List Node) : Node :=
  .mk (Encodable.encode (typeCode type, ix, children.map Node.addr)) type ix children

def literalCode (l : Int) : Nat := 2 * l.natAbs + if l < 0 then 1 else 0

/-- A hash-consing klay that simplifies as assumed, so that every predicate on klay has an
instance. -/
def reference : Klay where
  trueNode := make .True 0 []
  falseNode := make .False 0 []
  literalNode l := make .Leaf (literalCode l) []
  andNode xs :=
    if xs.any Node.isFalse then make .False 0 []
    else match xs.filter fun x => !x.isTrue with
      | [] => make .True 0 []
      | [x] => x
      | ys => make .And 0 ys
  orNode xs :=
    match xs.filter fun x => !x.isFalse with
    | [] => make .False 0 []
    | [x] => x
    | ys => make .Or 0 ys
  internalVal := literalCode

section

variable {α : Type*} {A : Reading α}

theorem and_filter (hA : A.Absorbs) (xs : List Node) :
    A.and ((xs.filter fun x => !x.isTrue).map (·.read A)) = A.and (xs.map (·.read A)) := by
  induction xs with
  | nil => rfl
  | cons x xs ih =>
    cases hx : x.isTrue with
    | true => simp [hx, ih, Node.read_true A hx, hA.and_top]
    | false => simpa [hx] using hA.and_congr _ _ _ ih

theorem or_filter (hA : A.Absorbs) (xs : List Node) :
    A.or ((xs.filter fun x => !x.isFalse).map (·.read A)) = A.or (xs.map (·.read A)) := by
  induction xs with
  | nil => rfl
  | cons x xs ih =>
    cases hx : x.isFalse with
    | true => simp [hx, ih, Node.read_false A hx, hA.or_bottom]
    | false => simpa [hx] using hA.or_congr _ _ _ ih

theorem reference_evaluates (hA : A.Absorbs) :
    reference.Evaluates A fun l => A.leaf (literalCode l) where
  trueNode := by simp [reference, make, Node.read]
  falseNode := by simp [reference, make, Node.read]
  literalNode l := by simp [reference, make, Node.read]
  andNode xs := by
    unfold reference
    dsimp only
    split
    next hf =>
      obtain ⟨x, hx, hxf⟩ := List.any_eq_true.mp hf
      have hmem : A.bottom ∈ xs.map (·.read A) :=
        List.mem_map.mpr ⟨x, hx, Node.read_false A hxf⟩
      rw [hA.and_bottom _ hmem]
      simp [make, Node.read]
    next =>
      rw [← and_filter hA]
      split
      next h => simp [h, hA.and_nil, make, Node.read]
      next x h => simp [h, hA.and_single]
      next ys _ _ => exact Node.read_and A rfl
  orNode xs := by
    rw [← or_filter hA]
    unfold reference
    dsimp only
    split
    next h => simp [h, hA.or_nil, make, Node.read]
    next x h => simp [h, hA.or_single]
    next ys _ _ => exact Node.read_or A rfl

end

def leafHolds (τ : Nat → Bool) (ix : Nat) : Bool := τ (ix / 2) == decide (ix % 2 = 0)

theorem reference_denotes (τ : Nat → Bool) :
    reference.Evaluates (Node.boolean (leafHolds τ)) (literalHolds τ) := by
  have hlit : (fun l => (Node.boolean (leafHolds τ)).leaf (literalCode l)) = literalHolds τ := by
    funext l
    show leafHolds τ (literalCode l) = literalHolds τ l
    unfold leafHolds literalCode literalHolds
    split
    next h =>
      have hdiv : (2 * l.natAbs + 1) / 2 = l.natAbs := by omega
      have hneg : ¬ 0 ≤ l := by omega
      simp [hdiv, hneg]
    next h =>
      have hpos : 0 ≤ l := by omega
      simp [hpos]
  rw [← hlit]
  exact reference_evaluates (boolean_absorbs _)

theorem reference_simplifies : reference.Simplifies where
  trueNode := rfl
  falseNode := rfl
  literalNode l := ⟨rfl, rfl⟩
  andNode xs := by
    unfold reference
    dsimp only
    split
    next hf =>
      obtain ⟨x, hx, hxf⟩ := List.any_eq_true.mp hf
      exact Or.inl ⟨⟨x, hx, hxf⟩, rfl⟩
    next hf =>
      have hnf : ∀ x ∈ xs, x.isFalse = false := by simpa using hf
      refine Or.inr ⟨hnf, ?_⟩
      split
      next h => exact Or.inl ⟨by simpa [List.filter_eq_nil_iff] using h, rfl⟩
      next x h => exact Or.inr ⟨by simp [h], Or.inr (by simp [h])⟩
      next ys hnil _ =>
        exact Or.inr ⟨hnil, Or.inl ⟨rfl, List.Subperm.refl _, List.Subset.refl _⟩⟩
  orNode xs := by
    unfold reference
    dsimp only
    split
    next h => exact Or.inl ⟨by simpa [List.filter_eq_nil_iff] using h, rfl⟩
    next x h => exact Or.inr (Or.inr ⟨by simp [h], Or.inr (by simp [h])⟩)
    next ys hnil _ =>
      exact Or.inr (Or.inr ⟨hnil, Or.inl ⟨rfl, List.Subperm.refl _, List.Subset.refl _⟩⟩)
  internalVal l m := by
    unfold reference literalCode
    dsimp only
    split <;> split <;> omega

inductive Made : Node → Prop
  | make (type : NodeType) (ix : Nat) (children : List Node) :
      (∀ c ∈ children, Made c) → Made (make type ix children)

theorem typeCode_injective : Function.Injective typeCode := by
  intro s t h
  cases s <;> cases t <;> first | rfl | cases h

theorem eq_of_addrs {cs : List Node}
    (hcs : ∀ c ∈ cs, ∀ d, Made d → c.addr = d.addr → c = d) :
    ∀ {ds : List Node}, (∀ d ∈ ds, Made d) → cs.map Node.addr = ds.map Node.addr → cs = ds := by
  induction cs with
  | nil =>
    intro ds _ h
    exact (List.map_eq_nil_iff.mp h.symm).symm
  | cons c cs ih =>
    intro ds hds h
    obtain ⟨hc, hcs⟩ := List.forall_mem_cons.mp hcs
    cases ds with
    | nil => cases h
    | cons d ds =>
      obtain ⟨hd, hds⟩ := List.forall_mem_cons.mp hds
      obtain ⟨haddr, haddrs⟩ := List.cons.inj h
      rw [hc d hd haddr, ih hcs hds haddrs]

theorem made_address {m n : Node} (hm : Made m) (hn : Made n) (h : m.addr = n.addr) : m = n := by
  induction hm generalizing n with
  | make s i cs _ ih =>
    obtain ⟨t, j, ds, hds⟩ := hn
    have hcode := Encodable.encode_injective h
    simp only [Prod.mk.injEq] at hcode
    obtain ⟨htype, hix, haddr⟩ := hcode
    rw [typeCode_injective htype, hix, eq_of_addrs (fun c hc d hd he => ih c hc hd he) hds haddr]

theorem reference_allocates : reference.Allocates Made where
  address m n hm hn h := made_address hm hn h
  children n hn c hc := by
    obtain ⟨t, i, cs, hcs⟩ := hn
    exact hcs c hc
  trueNode := .make _ _ _ (by simp)
  falseNode := .make _ _ _ (by simp)
  literalNode l := .make _ _ _ (by simp)
  andNode xs hxs := by
    have hkept : ∀ x ∈ xs.filter fun x => !x.isTrue, Made x :=
      fun x hx => hxs x (List.mem_of_mem_filter hx)
    unfold reference
    dsimp only
    split
    next => exact .make _ _ _ (by simp)
    next =>
      split
      next => exact .make _ _ _ (by simp)
      next x h => exact hkept x (by simp [h])
      next => exact .make _ _ _ hkept
  orNode xs hxs := by
    have hkept : ∀ x ∈ xs.filter fun x => !x.isFalse, Made x :=
      fun x hx => hxs x (List.mem_of_mem_filter hx)
    unfold reference
    dsimp only
    split
    next => exact .make _ _ _ (by simp)
    next x h => exact hkept x (by simp [h])
    next => exact .make _ _ _ hkept

end Klay

end Kompyle
