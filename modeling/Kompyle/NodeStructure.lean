import Kompyle.KlayCircuit

namespace Kompyle

open WeightedCount

namespace Node

/-- The variables of the leaves below a node, by index without the polarity bit. -/
def vars (n : Node) : Finset Nat := n.leaves.image (· / 2)

def IsChild (c n : Node) : Prop := (n.type = .And ∨ n.type = .Or) ∧ c ∈ n.children

def Below (m n : Node) : Prop := Relation.ReflTransGen IsChild m n

def Decomposable (n : Node) : Prop :=
  ∀ m : Node, m.Below n → m.type = .And → m.children.Pairwise fun c d => Disjoint c.vars d.vars

def Smooth (n : Node) : Prop :=
  ∀ m : Node, m.Below n → m.type = .Or → ∀ c ∈ m.children, ∀ d ∈ m.children, c.vars = d.vars

theorem below_cases {m n : Node} (h : m.Below n) : m = n ∨ ∃ c, c.IsChild n ∧ m.Below c := by
  rcases Relation.ReflTransGen.cases_tail h with h | ⟨c, hc, hn⟩
  · exact Or.inl h.symm
  · exact Or.inr ⟨c, hn, hc⟩

theorem vars_true {n : Node} (h : n.isTrue = true) : n.vars = ∅ := by
  simp [vars, leaves, read_true _ h, leafReading]

theorem vars_leaf {n : Node} (h : n.type = .Leaf) : n.vars = {n.ix / 2} := by
  simp [vars, leaves, read_leaf _ h, leafReading]

theorem leaves_children {n : Node} (h : n.type = .And ∨ n.type = .Or) :
    n.leaves = unions (n.children.map leaves) := by
  rcases h with h | h
  · rw [leaves, read_and _ h]
    rfl
  · rw [leaves, read_or _ h]
    rfl

theorem vars_children {n : Node} (h : n.type = .And ∨ n.type = .Or) :
    n.vars = unions (n.children.map vars) := by
  ext v
  simp only [vars, leaves_children h, Finset.mem_image, mem_unions, List.mem_map]
  constructor
  · rintro ⟨ix, ⟨_, ⟨c, hc, rfl⟩, hix⟩, rfl⟩
    exact ⟨_, ⟨c, hc, rfl⟩, Finset.mem_image_of_mem _ hix⟩
  · rintro ⟨_, ⟨c, hc, rfl⟩, hv⟩
    obtain ⟨ix, hix, rfl⟩ := Finset.mem_image.mp hv
    exact ⟨ix, ⟨_, ⟨c, hc, rfl⟩, hix⟩, rfl⟩

def Structured (n : Node) : Prop := n.Decomposable ∧ n.Smooth

def EachBelow (Q : Node → Prop) (n : Node) : Prop := ∀ m : Node, m.Below n → Q m

theorem eachBelow_of_children {Q : Node → Prop} {n : Node} (hn : Q n)
    (hc : ∀ c : Node, c.IsChild n → c.EachBelow Q) : n.EachBelow Q := by
  intro m hm
  rcases below_cases hm with rfl | ⟨c, hcn, hmc⟩
  · exact hn
  · exact hc c hcn m hmc

theorem eachBelow_leaf {Q : Node → Prop} {n : Node} (hn : Q n) (ha : n.type ≠ .And)
    (ho : n.type ≠ .Or) : n.EachBelow Q := by
  refine eachBelow_of_children hn fun c hc => ?_
  exact absurd hc.1 (not_or.mpr ⟨ha, ho⟩)

/-- The children of an and mention disjoint variables, those of an or the same ones. -/
structure Regular (n : Node) : Prop where
  and : n.type = .And → n.children.Pairwise fun c d => Disjoint c.vars d.vars
  or : n.type = .Or → ∀ c ∈ n.children, ∀ d ∈ n.children, c.vars = d.vars

theorem structured_iff {n : Node} : n.Structured ↔ n.EachBelow Regular := by
  constructor
  · exact fun h m hm => ⟨h.1 m hm, h.2 m hm⟩
  · exact fun h => ⟨fun m hm => (h m hm).and, fun m hm => (h m hm).or⟩

theorem structured_leaf {n : Node} (ha : n.type ≠ .And) (ho : n.type ≠ .Or) : n.Structured :=
  structured_iff.mpr (eachBelow_leaf ⟨(absurd · ha), (absurd · ho)⟩ ha ho)

theorem type_of_constant {n : Node} (h : n.isTrue = true ∨ n.isFalse = true) :
    n.type ≠ .And ∧ n.type ≠ .Or := by
  simp only [isTrue, isFalse, decide_eq_true_eq] at h
  rcases h with h | h
  · simp [h]
  · simp [h]

theorem structured_constant {n : Node} (h : n.isTrue = true ∨ n.isFalse = true) :
    n.Structured := structured_leaf (type_of_constant h).1 (type_of_constant h).2

/-- The children of a smooth or mention all that the or does. -/
theorem Smooth.vars_child {n c : Node} (h : n.Smooth) (ht : n.type = .Or) (hc : c ∈ n.children) :
    c.vars = n.vars := by
  rw [vars_children (Or.inr ht)]
  ext v
  simp only [mem_unions, List.mem_map]
  constructor
  · intro hv
    exact ⟨_, ⟨c, hc, rfl⟩, hv⟩
  · rintro ⟨_, ⟨d, hd, rfl⟩, hv⟩
    rwa [h n .refl ht c hc d hd]

end Node

namespace Klay

variable {xs ys : List Node} {n : Node}

theorem not_true_of_false {x : Node} (h : x.isFalse = true) : x.isTrue = false := by
  simp only [Node.isFalse, decide_eq_true_eq] at h
  simp [Node.isTrue, h]

theorem unions_vars_of_same {zs : List Node} (h₁ : ∀ x ∈ ys, x ∈ zs) (h₂ : ∀ x ∈ zs, x ∈ ys) :
    unions (ys.map Node.vars) = unions (zs.map Node.vars) := by
  ext v
  simp only [mem_unions, List.mem_map]
  constructor
  · rintro ⟨_, ⟨x, hx, rfl⟩, hv⟩
    exact ⟨_, ⟨x, h₁ x hx, rfl⟩, hv⟩
  · rintro ⟨_, ⟨x, hx, rfl⟩, hv⟩
    exact ⟨_, ⟨x, h₂ x hx, rfl⟩, hv⟩

theorem vars_of_gathers {type : NodeType} (ht : type = .And ∨ type = .Or)
    (h : Gathers type ys n) : n.vars = unions (ys.map Node.vars) := by
  obtain ⟨hne, ⟨htype, hsub, hall⟩ | hsame⟩ := h
  · rw [Node.vars_children (by simpa [htype] using ht)]
    exact unions_vars_of_same (fun x hx => hsub.subset hx) (fun x hx => hall hx)
  · obtain ⟨y, hy⟩ := List.exists_mem_of_ne_nil ys hne
    ext v
    simp only [mem_unions, List.mem_map]
    constructor
    · exact fun hv => ⟨_, ⟨y, hy, rfl⟩, by rw [hsame y hy]; exact hv⟩
    · rintro ⟨_, ⟨x, hx, rfl⟩, hv⟩
      rw [hsame x hx] at hv
      exact hv

theorem eachBelow_gathers {Q : Node → Prop} {type : NodeType} (h : Gathers type ys n)
    (hys : ∀ y ∈ ys, y.EachBelow Q)
    (hn : ∀ m : Node, m.type = type → m.children.Subperm ys → Q m) : n.EachBelow Q := by
  obtain ⟨hne, ⟨htype, hsub, -⟩ | hsame⟩ := h
  · exact Node.eachBelow_of_children (hn n htype hsub) fun c hc => hys c (hsub.subset hc.2)
  · obtain ⟨y, hy⟩ := List.exists_mem_of_ne_nil ys hne
    rw [← hsame y hy]
    exact hys y hy

/-- What a conjunction adds below itself is a node that is no or, with children among its own. -/
theorem eachBelow_andOf {Q : Node → Prop} (h : AndOf xs n) (hxs : ∀ x ∈ xs, x.EachBelow Q)
    (hn : ∀ m : Node, m.type ≠ .Or → (m.type = .And → m.children.Subperm
      (xs.filter fun x => !x.isTrue)) → Q m) : n.EachBelow Q := by
  have hconstant : n.isTrue = true ∨ n.isFalse = true → n.EachBelow Q := by
    intro h
    obtain ⟨ha, ho⟩ := Node.type_of_constant h
    exact Node.eachBelow_leaf (hn n ho fun h => absurd h ha) ha ho
  rcases h with ⟨-, hf⟩ | ⟨-, ⟨-, ht⟩ | hg⟩
  · exact hconstant (Or.inr hf)
  · exact hconstant (Or.inl ht)
  · refine eachBelow_gathers hg (fun y hy => hxs y (List.mem_of_mem_filter hy)) fun m hm hsub => ?_
    exact hn m (by simp [hm]) fun _ => hsub

theorem eachBelow_orOf {Q : Node → Prop} (h : OrOf xs n) (hxs : ∀ x ∈ xs, x.EachBelow Q)
    (hn : ∀ m : Node, m.type ≠ .And → (m.type = .Or → m.children.Subperm
      (xs.filter fun x => !x.isFalse)) → Q m) : n.EachBelow Q := by
  have hconstant : n.isTrue = true ∨ n.isFalse = true → n.EachBelow Q := by
    intro h
    obtain ⟨ha, ho⟩ := Node.type_of_constant h
    exact Node.eachBelow_leaf (hn n ha fun h => absurd h ho) ha ho
  rcases h with ⟨-, hf⟩ | ⟨-, ht⟩ | hg
  · exact hconstant (Or.inr hf)
  · exact hconstant (Or.inl ht)
  · refine eachBelow_gathers hg (fun y hy => hxs y (List.mem_of_mem_filter hy)) fun m hm hsub => ?_
    exact hn m (by simp [hm]) fun _ => hsub

theorem pairwise_of_subperm {rel : Node → Node → Prop} (hsymm : ∀ c d, rel c d → rel d c)
    {cs ys : List Node} (h : cs.Subperm ys) (hys : ys.Pairwise rel) : cs.Pairwise rel := by
  obtain ⟨l, hperm, hsub⟩ := h
  exact hperm.pairwise (hys.sublist hsub) fun hcd => hsymm _ _ hcd

theorem vars_andOf (h : AndOf xs n) (hnf : ∀ x ∈ xs, x.isFalse = false) :
    n.vars = unions (xs.map Node.vars) := by
  rcases h with ⟨⟨x, hx, hf⟩, -⟩ | ⟨-, ⟨hall, ht⟩ | hg⟩
  · simp [hnf x hx] at hf
  · rw [Node.vars_true ht]
    symm
    refine Finset.eq_empty_of_forall_notMem fun v hv => ?_
    obtain ⟨_, hm, hv⟩ := mem_unions.mp hv
    obtain ⟨x, hxm, rfl⟩ := List.mem_map.mp hm
    simp [Node.vars_true (hall x hxm)] at hv
  · rw [vars_of_gathers (Or.inl rfl) hg]
    ext v
    simp only [mem_unions, List.mem_map, List.mem_filter]
    constructor
    · rintro ⟨_, ⟨x, ⟨hx, -⟩, rfl⟩, hv⟩
      exact ⟨_, ⟨x, hx, rfl⟩, hv⟩
    · rintro ⟨_, ⟨x, hx, rfl⟩, hv⟩
      refine ⟨_, ⟨x, ⟨hx, ?_⟩, rfl⟩, hv⟩
      by_contra ht
      simp [Node.vars_true (by simpa using ht)] at hv

theorem andOf_structured (h : AndOf xs n) (hx : ∀ x ∈ xs, x.Structured)
    (hdisj : xs.Pairwise fun c d => Disjoint c.vars d.vars) :
    n.Structured ∧ (n.isFalse = true ∨
      (∀ x ∈ xs, x.isFalse = false) ∧ n.vars = unions (xs.map Node.vars)) := by
  constructor
  · rw [Node.structured_iff]
    refine eachBelow_andOf h (fun x hxm => Node.structured_iff.mp (hx x hxm)) fun m ho hsub => ?_
    refine ⟨fun ha => ?_, fun h => absurd h ho⟩
    exact pairwise_of_subperm (fun _ _ hcd => hcd.symm) (hsub ha)
      (hdisj.sublist List.filter_sublist)
  · rcases Or.imp And.right And.left h with hf | hnf
    · exact Or.inl hf
    · exact Or.inr ⟨hnf, vars_andOf h hnf⟩

theorem orOf_structured {vs : Finset Nat} (h : OrOf xs n) (hx : ∀ x ∈ xs, x.Structured)
    (hvs : ∀ x ∈ xs, x.isFalse = true ∨ x.vars = vs) :
    n.Structured ∧ (n.isFalse = true ∨ n.vars = vs) := by
  have hkept : ∀ y ∈ xs.filter (fun x => !x.isFalse), y.vars = vs := by
    intro y hy
    obtain ⟨hym, hyf⟩ := List.mem_filter.mp hy
    exact (hvs y hym).resolve_left (by simpa using hyf)
  constructor
  · rw [Node.structured_iff]
    refine eachBelow_orOf h (fun x hxm => Node.structured_iff.mp (hx x hxm)) fun m ha hsub => ?_
    refine ⟨fun h => absurd h ha, fun ho c hc d hd => ?_⟩
    have hcvs := hkept c ((hsub ho).subset hc)
    have hdvs := hkept d ((hsub ho).subset hd)
    exact hcvs.trans hdvs.symm
  · rcases h with ⟨-, hf⟩ | ⟨⟨x, hxm, hxt⟩, ht⟩ | hg
    · exact Or.inl hf
    · right
      rcases hvs x hxm with hf | hv
      · rw [not_true_of_false hf] at hxt
        cases hxt
      · rw [Node.vars_true ht, ← hv, Node.vars_true hxt]
    · right
      obtain ⟨y, hy⟩ := List.exists_mem_of_ne_nil _ hg.1
      rw [vars_of_gathers (Or.inr rfl) hg]
      ext v
      simp only [mem_unions, List.mem_map]
      constructor
      · rintro ⟨_, ⟨x, hxm, rfl⟩, hv⟩
        rwa [hkept x hxm] at hv
      · exact fun hv => ⟨_, ⟨y, hy, rfl⟩, by rwa [hkept y hy]⟩

theorem andOf_single (n : Node) : AndOf [n] n := by
  cases hf : n.isFalse with
  | true => exact Or.inl ⟨⟨n, by simp, hf⟩, hf⟩
  | false =>
    refine Or.inr ⟨by simpa using hf, ?_⟩
    cases ht : n.isTrue with
    | true => exact Or.inl ⟨by simp [ht], rfl⟩
    | false => exact Or.inr ⟨by simp [ht], Or.inr (by simp [ht])⟩

theorem orOf_single (n : Node) : OrOf [n] n := by
  cases hf : n.isFalse with
  | true => exact Or.inl ⟨by simpa using hf, hf⟩
  | false => exact Or.inr (Or.inr ⟨by simp [hf], Or.inr (by simp [hf])⟩)

theorem andOf_filter (h : AndOf (xs.filter fun x => !x.isTrue) n) : AndOf xs n := by
  rcases h with ⟨⟨x, hx, hxf⟩, hf⟩ | ⟨hnf, hrest⟩
  · exact Or.inl ⟨⟨x, List.mem_of_mem_filter hx, hxf⟩, hf⟩
  · refine Or.inr ⟨fun x hx => ?_, ?_⟩
    · by_contra hxf
      have hxf' : x.isFalse = true := by simpa using hxf
      have hmem : x ∈ xs.filter fun x => !x.isTrue :=
        List.mem_filter.mpr ⟨hx, by simp [not_true_of_false hxf']⟩
      exact hxf (hnf x hmem)
    · rcases hrest with ⟨hall, ht⟩ | hg
      · refine Or.inl ⟨fun x hx => ?_, ht⟩
        by_contra hxt
        have hmem : x ∈ xs.filter fun x => !x.isTrue :=
          List.mem_filter.mpr ⟨hx, by simpa using hxt⟩
        exact hxt (hall x hmem)
      · exact Or.inr (by simpa [List.filter_filter] using hg)

theorem andOf_false (h : AndOf xs n) {x : Node} (hx : x ∈ xs) (hf : x.isFalse = true) :
    n.isFalse = true := by
  rcases h with ⟨-, hn⟩ | ⟨hnf, -⟩
  · exact hn
  · simp [hnf x hx] at hf

theorem orOf_false (h : OrOf xs n) (hf : ∀ x ∈ xs, x.isFalse = true) : n.isFalse = true := by
  rcases h with ⟨-, hn⟩ | ⟨⟨x, hx, hxt⟩, -⟩ | ⟨hne, -⟩
  · exact hn
  · simp [not_true_of_false (hf x hx)] at hxt
  · exact absurd (List.filter_eq_nil_iff.mpr fun x hx => by simp [hf x hx]) hne

theorem leaves_of_gathers {type : NodeType} (ht : type = .And ∨ type = .Or)
    (h : Gathers type ys n) {ix : Nat} (hix : ix ∈ n.leaves) : ∃ y ∈ ys, ix ∈ y.leaves := by
  obtain ⟨hne, ⟨htype, hsub, -⟩ | hsame⟩ := h
  · rw [Node.leaves_children (by simpa [htype] using ht)] at hix
    obtain ⟨_, hm, hix⟩ := mem_unions.mp hix
    obtain ⟨c, hc, rfl⟩ := List.mem_map.mp hm
    exact ⟨c, hsub.subset hc, hix⟩
  · obtain ⟨y, hy⟩ := List.exists_mem_of_ne_nil ys hne
    exact ⟨y, hy, by rw [hsame y hy]; exact hix⟩

theorem Simplifies.keepsLeaves {K : Klay} (hK : K.Simplifies) : K.KeepsLeaves where
  trueNode := Node.read_true Node.leafReading hK.trueNode
  falseNode := Node.read_false Node.leafReading hK.falseNode
  literalNode l := by
    obtain ⟨htype, hix⟩ := hK.literalNode l
    rw [Node.leaves, Node.read_leaf _ htype, hix]
    exact subset_rfl
  andNode xs ix hix := by
    rcases hK.andNode xs with ⟨-, hf⟩ | ⟨-, ⟨-, ht⟩ | hg⟩
    · simp [Node.leaves, Node.read_false _ hf, Node.leafReading] at hix
    · simp [Node.leaves, Node.read_true _ ht, Node.leafReading] at hix
    · obtain ⟨y, hy, hiy⟩ := leaves_of_gathers (Or.inl rfl) hg hix
      exact ⟨y, List.mem_of_mem_filter hy, hiy⟩
  orNode xs ix hix := by
    rcases hK.orNode xs with ⟨-, hf⟩ | ⟨-, ht⟩ | hg
    · simp [Node.leaves, Node.read_false _ hf, Node.leafReading] at hix
    · simp [Node.leaves, Node.read_true _ ht, Node.leafReading] at hix
    · obtain ⟨y, hy, hiy⟩ := leaves_of_gathers (Or.inr rfl) hg hix
      exact ⟨y, List.mem_of_mem_filter hy, hiy⟩

end Klay

end Kompyle
