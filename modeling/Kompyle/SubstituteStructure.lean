import Kompyle.ListLoops
import Kompyle.SubstituteTrue
import Mathlib.Data.Nat.Bitwise

namespace Kompyle

open ListLoops WeightedCount

/-- A literal index and its complement differ in the lowest bit. -/
theorem xor_one_div (c : Nat) : (c ^^^ 1) / 2 = c / 2 := by
  rw [Nat.xor_div_two]
  simp

theorem xor_one_ne (c : Nat) : c ^^^ 1 ≠ c := by
  intro h
  have hcancel : c ^^^ (c ^^^ 1) = c ^^^ c := congrArg (c ^^^ ·) h
  rw [Nat.xor_xor_cancel_left, Nat.xor_self] at hcancel
  omega

theorem eq_or_xor_of_div_two {c d : Nat} (h : c / 2 = d / 2) : c = d ∨ c ^^^ 1 = d := by
  have hdiv := xor_one_div c
  have hne := xor_one_ne c
  omega

mutual

/-- What SubstituteTrue returns, computed without the memo table. -/
def substituted (K : Klay) (trueIxs : Finset Nat) : Node → Node
  | .mk addr .True ix children => .mk addr .True ix children
  | .mk addr .False ix children => .mk addr .False ix children
  | .mk addr .Leaf ix children =>
    if ix ∈ trueIxs then K.trueNode
    else if ix ^^^ 1 ∈ trueIxs then K.falseNode
    else .mk addr .Leaf ix children
  | .mk _ .And _ children => K.andNode (substitutedAll K trueIxs children)
  | .mk _ .Or _ children => K.orNode (substitutedAll K trueIxs children)

def substitutedAll (K : Klay) (trueIxs : Finset Nat) : List Node → List Node
  | [] => []
  | c :: cs => substituted K trueIxs c :: substitutedAll K trueIxs cs

end

/-- The calls that a call of SubstituteTrue makes, itself included, each with the memo table it
finds. -/
inductive Called (K : Klay) (trueIxs : Finset Nat) : Node → Memo → Node → Memo → Prop
  | self (n : Node) (memo : Memo) : Called K trueIxs n memo n memo
  | child {n c m : Node} {before after : List Node} {memo memo' : Memo} :
      n.type = .And ∨ n.type = .Or → memo.lookup n.addr = none →
      n.children = before ++ c :: after →
      Called K trueIxs c (substituteAll K trueIxs before memo).2 m memo' →
      Called K trueIxs n memo m memo'

/-- The leaves of `trueIxs` made true, and their complements false. -/
def setTrue (trueIxs : Finset Nat) (σ : Nat → Bool) (ix : Nat) : Bool :=
  if ix ∈ trueIxs then true else if ix ^^^ 1 ∈ trueIxs then false else σ ix

/-- An assignment of the literals by index. -/
def Complementary (σ : Nat → Bool) : Prop := ∀ ix, σ (ix ^^^ 1) = !σ ix

/-- And and or denote conjunction and disjunction, under every assignment. -/
def Klay.Denotes (K : Klay) : Prop :=
  ∀ σ, Complementary σ → K.Evaluates (Node.boolean σ) fun l => σ (K.internalVal l)

section

variable {K : Klay} {trueIxs : Finset Nat} {alloc : Node → Prop}

theorem setTrue_complementary (hS : ∀ ix ∈ trueIxs, ix ^^^ 1 ∉ trueIxs) {σ : Nat → Bool}
    (hσ : Complementary σ) : Complementary (setTrue trueIxs σ) := by
  intro ix
  have hcancel : ix ^^^ 1 ^^^ 1 = ix := Nat.xor_xor_cancel_right ix 1
  unfold setTrue
  rw [hcancel]
  by_cases hix : ix ∈ trueIxs
  · have hneg := hS ix hix
    simp [hix, hneg]
  · by_cases hneg : ix ^^^ 1 ∈ trueIxs
    · simp [hix, hneg]
    · simp [hix, hneg, hσ ix]

theorem forall₂_substituted {ns rs : List Node}
    (h : List.Forall₂ (fun n r => r = substituted K trueIxs n) ns rs) :
    rs = substitutedAll K trueIxs ns := by
  induction h with
  | nil => rfl
  | cons hr _ ih => rw [hr, ih, substitutedAll]

theorem substitutes_substituted :
    Substitutes K trueIxs alloc fun n r => r = substituted K trueIxs n where
  constant n _ ht := by
    obtain ⟨addr, type, ix, children⟩ := n
    rcases ht with ht | ht
    · obtain rfl : type = .True := ht
      rfl
    · obtain rfl : type = .False := ht
      rfl
  leafTrue n _ ht hix := by
    obtain ⟨addr, type, ix, children⟩ := n
    obtain rfl : type = .Leaf := ht
    exact (if_pos hix).symm
  leafFalse n _ ht hix hneg := by
    obtain ⟨addr, type, ix, children⟩ := n
    obtain rfl : type = .Leaf := ht
    exact ((if_neg hix).trans (if_pos hneg)).symm
  leafKept n _ ht hix hneg := by
    obtain ⟨addr, type, ix, children⟩ := n
    obtain rfl : type = .Leaf := ht
    exact ((if_neg hix).trans (if_neg hneg)).symm
  and n _ ht rs hrs := by
    obtain ⟨addr, type, ix, children⟩ := n
    obtain rfl : type = .And := ht
    rw [forall₂_substituted hrs]
    rfl
  or n _ ht rs hrs := by
    obtain ⟨addr, type, ix, children⟩ := n
    obtain rfl : type = .Or := ht
    rw [forall₂_substituted hrs]
    rfl

/-- Every call finds a memo table of plain results. -/
theorem Called.memoOk (halloc : Node.Addressed alloc) {n m : Node} {memo memo' : Memo}
    (h : Called K trueIxs n memo m memo') (hn : alloc n)
    (hmemo : MemoOk alloc (fun n r => r = substituted K trueIxs n) memo) :
    alloc m ∧ MemoOk alloc (fun n r => r = substituted K trueIxs n) memo' := by
  induction h with
  | self => exact ⟨hn, hmemo⟩
  | @child n c m before after memo memo' htype _ hchildren _ ih =>
    have hcs : ∀ d ∈ before ++ c :: after, alloc d := by
      intro d hd
      rw [← hchildren] at hd
      exact halloc.child d n ⟨htype, hd⟩ hn
    have hbefore : ∀ d ∈ before, alloc d := fun d hd => hcs d (List.mem_append_left _ hd)
    have hc : alloc c := hcs c (List.mem_append_right _ List.mem_cons_self)
    have hspec := substituteAll_spec
      (fun d _ => substituteTrue_spec halloc substitutes_substituted d) memo hbefore hmemo
    exact ih hc hspec.2

theorem leaves_true {n : Node} (h : n.isTrue = true) : n.leaves = ∅ :=
  Node.read_true Node.leafReading h

theorem leaves_false {n : Node} (h : n.isFalse = true) : n.leaves = ∅ :=
  Node.read_false Node.leafReading h

/-- Only leaves that were there before, and of no substituted variable, are left. -/
def Cleared (trueIxs : Finset Nat) (n r : Node) : Prop :=
  ∀ ix ∈ r.leaves, ix ∈ n.leaves ∧ ix ∉ trueIxs ∧ ix ^^^ 1 ∉ trueIxs

theorem cleared_of_forall₂ {n : Node} (ht : n.type = .And ∨ n.type = .Or) {rs : List Node}
    (hrs : List.Forall₂ (Cleared trueIxs) n.children rs) {r : Node}
    (hr : ∀ ix ∈ r.leaves, ∃ x ∈ rs, ix ∈ x.leaves) : Cleared trueIxs n r := by
  intro ix hix
  obtain ⟨x, hx, hixx⟩ := hr ix hix
  obtain ⟨c, hc, hcx⟩ := exists_of_forall₂ hrs hx
  obtain ⟨hleaf, hclear⟩ := hcx ix hixx
  refine ⟨?_, hclear⟩
  rw [Node.leaves_children ht]
  exact mem_unions.mpr ⟨c.leaves, List.mem_map_of_mem hc, hleaf⟩

theorem substitutes_cleared (hK : K.KeepsLeaves) :
    Substitutes K trueIxs alloc (Cleared trueIxs) where
  constant n _ ht := by
    have hempty : n.leaves = ∅ := by
      rcases ht with ht | ht
      · exact leaves_true (by simp [Node.isTrue, ht])
      · exact leaves_false (by simp [Node.isFalse, ht])
    intro ix hix
    rw [hempty] at hix
    cases hix
  leafTrue n _ _ _ := by
    intro ix hix
    rw [hK.trueNode] at hix
    cases hix
  leafFalse n _ _ _ _ := by
    intro ix hix
    rw [hK.falseNode] at hix
    cases hix
  leafKept n _ ht hix hneg := by
    intro ix hmem
    have hleaf : n.leaves = {n.ix} := Node.read_leaf Node.leafReading ht
    have heq : ix = n.ix := by
      rw [hleaf] at hmem
      exact Finset.mem_singleton.mp hmem
    subst heq
    exact ⟨hmem, hix, hneg⟩
  and n _ ht rs hrs := cleared_of_forall₂ (Or.inl ht) hrs (hK.andNode rs)
  or n _ ht rs hrs := cleared_of_forall₂ (Or.inr ht) hrs (hK.orNode rs)

/-- A structured node becomes a structured one that is False or mentions the variables that are
not substituted. -/
def Conditioned (trueIxs : Finset Nat) (n r : Node) : Prop :=
  n.Structured →
    r.Structured ∧ (r.isFalse = true ∨ r.vars = n.vars \ trueIxs.image (· / 2))

theorem Node.Structured.child {n c : Node} (h : n.Structured) (hc : c.IsChild n) :
    c.Structured :=
  ⟨fun m hm => h.1 m (hm.tail hc), fun m hm => h.2 m (hm.tail hc)⟩

theorem Node.vars_false {n : Node} (h : n.isFalse = true) : n.vars = ∅ := by
  rw [Node.vars, leaves_false h, Finset.image_empty]

theorem Conditioned.vars_subset {n r : Node} (h : Conditioned trueIxs n r) (hn : n.Structured) :
    r.vars ⊆ n.vars := by
  rcases (h hn).2 with hf | hvars
  · rw [Node.vars_false hf]
    exact Finset.empty_subset _
  · rw [hvars]
    exact Finset.sdiff_subset

section

variable {cs rs : List Node}

theorem conditioned_pairwise (h : List.Forall₂ (Conditioned trueIxs) cs rs)
    (hcs : ∀ c ∈ cs, c.Structured) (hdisj : cs.Pairwise fun c d => Disjoint c.vars d.vars) :
    rs.Pairwise fun c d => Disjoint c.vars d.vars := by
  induction h with
  | nil => exact .nil
  | @cons c r cs rs hc hcs' ih =>
    obtain ⟨hstruct, hrest⟩ := List.forall_mem_cons.mp hcs
    obtain ⟨hfirst, hpair⟩ := List.pairwise_cons.mp hdisj
    refine List.pairwise_cons.mpr ⟨fun r' hr' => ?_, ih hrest hpair⟩
    obtain ⟨d, hd, hdr⟩ := exists_of_forall₂ hcs' hr'
    have hcr := hc.vars_subset hstruct
    have hdr' := hdr.vars_subset (hrest d hd)
    exact (hfirst d hd).mono hcr hdr'

theorem conditioned_vars (h : List.Forall₂ (Conditioned trueIxs) cs rs)
    (hcs : ∀ c ∈ cs, c.Structured) (hf : ∀ r ∈ rs, r.isFalse = false) :
    rs.map Node.vars = (cs.map Node.vars).map (· \ trueIxs.image (· / 2)) := by
  induction h with
  | nil => rfl
  | @cons c r cs rs hc _ ih =>
    obtain ⟨hstruct, hrest⟩ := List.forall_mem_cons.mp hcs
    obtain ⟨hr, hrs⟩ := List.forall_mem_cons.mp hf
    have hvars : r.vars = c.vars \ trueIxs.image (· / 2) :=
      (hc hstruct).2.resolve_left (by simp [hr])
    rw [List.map_cons, List.map_cons, List.map_cons, ih hrest hrs, hvars]

end

theorem structured_of_forall₂ {cs rs : List Node} (h : List.Forall₂ (Conditioned trueIxs) cs rs)
    (hcs : ∀ c ∈ cs, c.Structured) : ∀ r ∈ rs, r.Structured := by
  intro r hr
  obtain ⟨c, hc, hcr⟩ := exists_of_forall₂ h hr
  exact (hcr (hcs c hc)).1

theorem substitutes_conditioned (hK : K.Simplifies) :
    Substitutes K trueIxs alloc (Conditioned trueIxs) where
  constant n _ ht := by
    intro hn
    refine ⟨hn, ?_⟩
    rcases ht with ht | ht
    · right
      rw [Node.vars_true (by simp [Node.isTrue, ht]), Finset.empty_sdiff]
    · exact Or.inl (by simp [Node.isFalse, ht])
  leafTrue n _ ht hix := by
    intro _
    refine ⟨Node.structured_constant (Or.inl hK.trueNode), Or.inr ?_⟩
    have hmem : n.ix / 2 ∈ trueIxs.image (· / 2) := Finset.mem_image_of_mem _ hix
    rw [Node.vars_true hK.trueNode, Node.vars_leaf ht]
    exact (Finset.sdiff_eq_empty_iff_subset.mpr (Finset.singleton_subset_iff.mpr hmem)).symm
  leafFalse n _ _ _ _ := by
    intro _
    exact ⟨Node.structured_constant (Or.inr hK.falseNode), Or.inl hK.falseNode⟩
  leafKept n _ ht hix hneg := by
    intro hn
    refine ⟨hn, Or.inr ?_⟩
    have hmem : n.ix / 2 ∉ trueIxs.image (· / 2) := by
      intro hmem
      obtain ⟨s, hs, hdiv⟩ := Finset.mem_image.mp hmem
      rcases eq_or_xor_of_div_two hdiv.symm with he | he
      · exact hix (he ▸ hs)
      · exact hneg (he ▸ hs)
    rw [Node.vars_leaf ht]
    exact (Finset.sdiff_eq_self_of_disjoint (Finset.disjoint_singleton_left.mpr hmem)).symm
  and n _ ht rs hrs := by
    intro hn
    have hcs : ∀ c ∈ n.children, c.Structured := fun c hc => hn.child ⟨Or.inl ht, hc⟩
    have hstruct := structured_of_forall₂ hrs hcs
    have hdisj := conditioned_pairwise hrs hcs (hn.1 n .refl ht)
    obtain ⟨hand, hfalse | ⟨hnone, hvars⟩⟩ :=
      Klay.andOf_structured (hK.andNode rs) hstruct hdisj
    · exact ⟨hand, Or.inl hfalse⟩
    · refine ⟨hand, Or.inr ?_⟩
      rw [hvars, conditioned_vars hrs hcs hnone, ← unions_sdiff, ← Node.vars_children (Or.inl ht)]
  or n _ ht rs hrs := by
    intro hn
    have hcs : ∀ c ∈ n.children, c.Structured := fun c hc => hn.child ⟨Or.inr ht, hc⟩
    have hstruct := structured_of_forall₂ hrs hcs
    refine Klay.orOf_structured (hK.orNode rs) hstruct fun r hr => ?_
    obtain ⟨c, hc, hcr⟩ := exists_of_forall₂ hrs hr
    rw [← hn.2.vars_child ht hc]
    exact (hcr (hcs c hc)).2

theorem Node.addressed_below {n : Node}
    (haddr : ∀ m m' : Node, m.Below n → m'.Below n → m.addr = m'.addr → m = m') :
    Node.Addressed fun m => m.Below n where
  address := haddr
  child _ _ hc hm := .head hc hm

/-- SubstituteTrue conditions the circuit on the literals of `trueIxs`, and keeps it decomposable
and smooth; the memo table has for every node it is asked for what that node becomes. -/
theorem substituteTrue_conditions (hK : K.Simplifies) (hden : K.Denotes)
    (hS : ∀ ix ∈ trueIxs, ix ^^^ 1 ∉ trueIxs) {n : Node}
    (haddr : ∀ m m' : Node, m.Below n → m'.Below n → m.addr = m'.addr → m = m') :
    let r := (substituteTrue K trueIxs n []).1
    (∀ σ, Complementary σ → Complementary (setTrue trueIxs σ) ∧
      r.denote σ = n.denote (setTrue trueIxs σ)) ∧
    (∀ ix ∈ r.leaves, ∀ s ∈ trueIxs, ix / 2 ≠ s / 2) ∧
    (n.Decomposable → n.Smooth → r.Decomposable ∧ r.Smooth ∧
      (r.isFalse = true ∨ r.vars = n.vars \ trueIxs.image (· / 2))) ∧
    r = substituted K trueIxs n ∧
    ∀ m memo x, Called K trueIxs n [] m memo → memo.lookup m.addr = some x →
      x = substituted K trueIxs m := by
  have halloc := Node.addressed_below haddr
  refine ⟨fun σ hσ => ⟨setTrue_complementary hS hσ, ?_⟩, ?_, fun hdec hsmooth => ?_, ?_, ?_⟩
  · exact substituteTrue_rel halloc (substitutes_read (hden σ hσ)) .refl
  · intro ix hix s hs hdiv
    have hcleared : Cleared trueIxs n (substituteTrue K trueIxs n []).1 :=
      substituteTrue_rel halloc (substitutes_cleared hK.keepsLeaves) .refl
    obtain ⟨-, hpos, hneg⟩ := hcleared ix hix
    rcases eq_or_xor_of_div_two hdiv with he | he
    · exact hpos (he ▸ hs)
    · exact hneg (he ▸ hs)
  · have hcond : Conditioned trueIxs n (substituteTrue K trueIxs n []).1 :=
      substituteTrue_rel halloc (substitutes_conditioned hK) .refl
    obtain ⟨hstruct, hvars⟩ := hcond ⟨hdec, hsmooth⟩
    exact ⟨hstruct.1, hstruct.2, hvars⟩
  · exact substituteTrue_rel halloc substitutes_substituted .refl
  · intro m memo x hcalled hx
    obtain ⟨hm, hmemo⟩ := hcalled.memoOk halloc .refl memoOk_nil
    exact hmemo.lookup halloc hm hx

end

theorem reference_complementary : Klay.reference.Denotes :=
  fun σ _ => Klay.reference_evaluates (boolean_absorbs σ)

/-- The exclusive or of two literals' branches, sharing the leaf of a third. -/
def sharedLeaf : Node :=
  let K := Klay.reference
  K.orNode [K.andNode [K.literalNode 1, K.literalNode 2],
    K.andNode [K.literalNode (-1), K.literalNode 2]]

theorem sharedLeaf_made : Klay.Made sharedLeaf := by
  have hK := Klay.reference_allocates
  have hand : ∀ l, Klay.Made (Klay.reference.andNode
      [Klay.reference.literalNode l, Klay.reference.literalNode 2]) := by
    intro l
    apply hK.andNode
    simp [hK.literalNode]
  apply hK.orNode
  simp [hand]

theorem sharedLeaf_structured : sharedLeaf.Structured := by
  have hK := Klay.reference_simplifies
  have hleaf : ∀ l, (Klay.reference.literalNode l).Structured :=
    fun l => Node.structured_leaf (by simp [(hK.literalNode l).1])
      (by simp [(hK.literalNode l).1])
  have hand : ∀ l, Disjoint (Klay.reference.literalNode l).vars
      (Klay.reference.literalNode 2).vars → (Klay.reference.andNode
        [Klay.reference.literalNode l, Klay.reference.literalNode 2]).Structured := by
    intro l hdisj
    refine (Klay.andOf_structured (hK.andNode _) ?_ ?_).1
    · simp [hleaf]
    · simp [hdisj]
  have hvars : ∀ x ∈ [Klay.reference.andNode [Klay.reference.literalNode 1,
      Klay.reference.literalNode 2], Klay.reference.andNode [Klay.reference.literalNode (-1),
      Klay.reference.literalNode 2]], x.isFalse = true ∨ x.vars = {1, 2} := by decide
  refine (Klay.orOf_structured (hK.orNode _) ?_ hvars).1
  simp [hand 1 (by decide), hand (-1) (by decide)]

theorem sharedLeaf_conditions :
    let r := (substituteTrue Klay.reference {4} sharedLeaf []).1
    (∀ σ, Complementary σ → Complementary (setTrue {4} σ) ∧
      r.denote σ = sharedLeaf.denote (setTrue {4} σ)) ∧
    (∀ ix ∈ r.leaves, ∀ s ∈ ({4} : Finset Nat), ix / 2 ≠ s / 2) ∧
    (r.Decomposable ∧ r.Smooth ∧
      (r.isFalse = true ∨ r.vars = sharedLeaf.vars \ ({4} : Finset Nat).image (· / 2))) ∧
    r = substituted Klay.reference {4} sharedLeaf ∧
    ∀ m memo x, Called Klay.reference {4} sharedLeaf [] m memo → memo.lookup m.addr = some x →
      x = substituted Klay.reference {4} m := by
  have haddr : ∀ m m' : Node, m.Below sharedLeaf → m'.Below sharedLeaf → m.addr = m'.addr →
      m = m' := by
    intro m m' hm hm' h
    have halloc := Klay.reference_allocates.addressed
    exact Klay.made_address (halloc.below sharedLeaf_made hm) (halloc.below sharedLeaf_made hm') h
  have hS : ∀ ix ∈ ({4} : Finset Nat), ix ^^^ 1 ∉ ({4} : Finset Nat) := by decide
  have h := substituteTrue_conditions Klay.reference_simplifies reference_complementary hS haddr
  obtain ⟨hdenote, hleaves, hstruct, hresult⟩ := h
  have hmade := sharedLeaf_structured
  exact ⟨hdenote, hleaves, hstruct hmade.1 hmade.2, hresult⟩

end Kompyle
