import Kompyle.SddGraph

namespace Kompyle

/-- The binary tree of variables that an SDD is built for. -/
inductive Vtree
  | leaf (v : Nat)
  | node (left right : Vtree)
  deriving DecidableEq, Repr

namespace Vtree

def leaves : Vtree → List Nat
  | leaf v => [v]
  | node left right => left.leaves ++ right.leaves

def vars (t : Vtree) : Finset Nat := t.leaves.toFinset

inductive Subtree : Vtree → Vtree → Prop
  | refl (t : Vtree) : Subtree t t
  | left {s l r : Vtree} : Subtree s l → Subtree s (node l r)
  | right {s l r : Vtree} : Subtree s r → Subtree s (node l r)

theorem Subtree.sublist {s t : Vtree} (h : s.Subtree t) : s.leaves.Sublist t.leaves := by
  induction h with
  | refl => exact List.Sublist.refl _
  | left _ ih => exact ih.trans (List.sublist_append_left _ _)
  | right _ ih => exact ih.trans (List.sublist_append_right _ _)

theorem Subtree.vars_subset {s t : Vtree} (h : s.Subtree t) : s.vars ⊆ t.vars := by
  intro v hv
  exact List.mem_toFinset.mpr (h.sublist.subset (List.mem_toFinset.mp hv))

/-- The two sides of an inner node share no variable. -/
theorem Subtree.disjoint {left right t : Vtree} (h : (node left right).Subtree t)
    (ht : t.leaves.Nodup) : Disjoint left.vars right.vars := by
  have hnodup : (left.leaves ++ right.leaves).Nodup := ht.sublist h.sublist
  obtain ⟨-, -, hne⟩ := List.nodup_append.mp hnodup
  refine Finset.disjoint_left.mpr fun v hl hr => ?_
  exact hne v (List.mem_toFinset.mp hl) v (List.mem_toFinset.mp hr) rfl

theorem left_subset (left right : Vtree) : left.vars ⊆ (node left right).vars :=
  (Subtree.left (.refl left)).vars_subset

theorem right_subset (left right : Vtree) : right.vars ⊆ (node left right).vars :=
  (Subtree.right (.refl right)).vars_subset

end Vtree

namespace SddGraph

variable (G : SddGraph)

def Mentions (id v : Nat) : Prop := ∃ m l, G.Below m id ∧ G.node m = .literal l ∧ l.natAbs = v

/-- The variables of the SDD are leaves of the vtree, and for every decision the vtree has a node
with the variables of the primes on the left and those of the subs on the right. The primes of a
decision exclude each other, and one of them always holds. -/
structure Respects (t : Vtree) (root : Nat) : Prop where
  covers : ∀ v, G.Mentions root v → v ∈ t.vars
  split : ∀ id elements, G.Below id root → G.node id = .decision elements →
    ∃ left right, (Vtree.node left right).Subtree t ∧ ∀ e ∈ elements,
      (∀ v, G.Mentions e.1 v → v ∈ left.vars) ∧ ∀ v, G.Mentions e.2 v → v ∈ right.vars
  inconsistent : ∀ id elements, G.Below id root → G.node id = .decision elements →
    elements.Pairwise fun e f => ∀ τ, ¬ (G.denote τ e.1 = true ∧ G.denote τ f.1 = true)
  exhaustive : ∀ id elements, G.Below id root → G.node id = .decision elements →
    ∀ τ, ∃ e ∈ elements, G.denote τ e.1 = true

variable {G}

theorem induction {P : Nat → Prop} (h : ∀ id, (∀ c ∈ (G.node id).children, P c) → P id)
    (id : Nat) : P id :=
  h id fun c _ => induction h c
termination_by G.rank id
decreasing_by exact G.acyclic id c (by assumption)

theorem Mentions.child {c id v : Nat} (h : G.Mentions c v) (hc : c ∈ (G.node id).children) :
    G.Mentions id v := by
  obtain ⟨m, l, hm, hl, hv⟩ := h
  exact ⟨m, l, hm.tail hc, hl, hv⟩

theorem mentions_literal {id : Nat} {l : Int} (h : G.node id = .literal l) :
    G.Mentions id l.natAbs := ⟨id, l, .refl, h, rfl⟩

theorem mentions_cases {id v : Nat} (h : G.Mentions id v) :
    (∃ l, G.node id = .literal l ∧ l.natAbs = v) ∨
      ∃ c ∈ (G.node id).children, G.Mentions c v := by
  obtain ⟨m, l, hm, hl, hv⟩ := h
  rcases Relation.ReflTransGen.cases_tail hm with rfl | ⟨c, hmc, hc⟩
  · exact Or.inl ⟨l, hl, hv⟩
  · exact Or.inr ⟨c, hc, m, l, hmc, hl, hv⟩

theorem eq_of_mentions_literal {id v : Nat} {l : Int} (hnode : G.node id = .literal l)
    (h : G.Mentions id v) : v = l.natAbs := by
  rcases mentions_cases h with ⟨k, hk, rfl⟩ | ⟨c, hc, -⟩
  · rw [hnode] at hk
    rw [SddNode.literal.inj hk]
  · rw [hnode] at hc
    cases hc

/-- What a node denotes depends on the variables below it only. -/
theorem denote_mentions {σ τ : Nat → Bool} (id : Nat) (h : ∀ v, G.Mentions id v → σ v = τ v) :
    G.denote σ id = G.denote τ id := by
  revert h
  refine G.induction (P := fun id => (∀ v, G.Mentions id v → σ v = τ v) →
    G.denote σ id = G.denote τ id) (fun id ih h => ?_) id
  cases hnode : G.node id with
  | literal l =>
    rw [denote_literal hnode, denote_literal hnode, literalHolds, literalHolds,
      h _ (mentions_literal hnode)]
  | true => rw [denote_true hnode, denote_true hnode]
  | false => rw [denote_false hnode, denote_false hnode]
  | decision elements =>
    have hchild : ∀ c ∈ (G.node id).children, G.denote σ c = G.denote τ c :=
      fun c hc => ih c hc fun v hv => h v (hv.child hc)
    rw [denote_decision hnode, denote_decision hnode, Bool.eq_iff_iff, List.any_eq_true,
      List.any_eq_true]
    refine exists_congr fun e => and_congr_right fun he => ?_
    obtain ⟨hprime, hsub⟩ := mem_children he
    rw [hchild e.1 (hnode ▸ hprime), hchild e.2 (hnode ▸ hsub)]

end SddGraph

end Kompyle
