import Kompyle.KlayReference

namespace Kompyle

abbrev Memo := List (Nat × Node)

mutual

/-- SubstituteTrue: the leaves of `trueIxs` become true and their complements false. -/
def substituteTrue (K : Klay) (trueIxs : Finset Nat) : Node → Memo → Node × Memo
  | .mk addr type ix children, memo =>
    match memo.lookup addr with
    | some result => (result, memo)
    | none =>
      match type with
      | .True => (.mk addr .True ix children, (addr, .mk addr .True ix children) :: memo)
      | .False => (.mk addr .False ix children, (addr, .mk addr .False ix children) :: memo)
      | .Leaf =>
        let result :=
          if ix ∈ trueIxs then K.trueNode
          else if ix ^^^ 1 ∈ trueIxs then K.falseNode
          else .mk addr .Leaf ix children
        (result, (addr, result) :: memo)
      | .And =>
        let (ch, memo) := substituteAll K trueIxs children memo
        (K.andNode ch, (addr, K.andNode ch) :: memo)
      | .Or =>
        let (ch, memo) := substituteAll K trueIxs children memo
        (K.orNode ch, (addr, K.orNode ch) :: memo)

def substituteAll (K : Klay) (trueIxs : Finset Nat) : List Node → Memo → List Node × Memo
  | [], memo => ([], memo)
  | c :: cs, memo =>
    let (r, memo) := substituteTrue K trueIxs c memo
    let (rs, memo) := substituteAll K trueIxs cs memo
    (r :: rs, memo)

end

/-- Nodes that no address confuses, with everything below them. -/
structure Node.Addressed (alloc : Node → Prop) : Prop where
  address : ∀ m n, alloc m → alloc n → m.addr = n.addr → m = n
  child : ∀ c n, Node.IsChild c n → alloc n → alloc c

theorem Klay.Allocates.addressed {K : Klay} {alloc : Node → Prop} (hK : K.Allocates alloc) :
    Node.Addressed alloc where
  address := hK.address
  child c n hc hn := hK.children n hn c hc.2

theorem Node.Addressed.below {alloc : Node → Prop} (h : Node.Addressed alloc) {m n : Node}
    (hn : alloc n) (hm : m.Below n) : alloc m := by
  induction hm using Relation.ReflTransGen.head_induction_on with
  | refl => exact hn
  | head hc _ ih => exact h.child _ _ hc ih

/-- What a relation between nodes and their results has to satisfy at each kind of node. -/
structure Substitutes (K : Klay) (trueIxs : Finset Nat) (alloc : Node → Prop)
    (rel : Node → Node → Prop) : Prop where
  constant : ∀ n, alloc n → n.type = .True ∨ n.type = .False → rel n n
  leafTrue : ∀ n, alloc n → n.type = .Leaf → n.ix ∈ trueIxs → rel n K.trueNode
  leafFalse : ∀ n, alloc n → n.type = .Leaf → n.ix ∉ trueIxs → n.ix ^^^ 1 ∈ trueIxs →
    rel n K.falseNode
  leafKept : ∀ n, alloc n → n.type = .Leaf → n.ix ∉ trueIxs → n.ix ^^^ 1 ∉ trueIxs → rel n n
  and : ∀ n, alloc n → n.type = .And → ∀ rs, List.Forall₂ rel n.children rs →
    rel n (K.andNode rs)
  or : ∀ n, alloc n → n.type = .Or → ∀ rs, List.Forall₂ rel n.children rs → rel n (K.orNode rs)

section

variable {K : Klay} {trueIxs : Finset Nat} {alloc : Node → Prop} {rel : Node → Node → Prop}

def MemoOk (alloc : Node → Prop) (rel : Node → Node → Prop) (memo : Memo) : Prop :=
  ∀ a r, memo.lookup a = some r → ∃ m, alloc m ∧ m.addr = a ∧ rel m r

theorem memoOk_nil : MemoOk alloc rel [] := by
  intro a r h
  cases h

theorem MemoOk.cons {memo : Memo} (h : MemoOk alloc rel memo) {n r : Node} (hn : alloc n)
    (hr : rel n r) : MemoOk alloc rel ((n.addr, r) :: memo) := by
  intro a r' hlookup
  by_cases ha : a = n.addr
  · subst ha
    rw [List.lookup_cons_self] at hlookup
    obtain rfl := Option.some.inj hlookup
    exact ⟨n, hn, rfl, hr⟩
  · have hne : (a == n.addr) = false := by simp [ha]
    rw [List.lookup_cons, hne] at hlookup
    exact h a r' hlookup

theorem MemoOk.lookup (halloc : Node.Addressed alloc) {memo : Memo} (h : MemoOk alloc rel memo)
    {n r : Node} (hn : alloc n) (hr : memo.lookup n.addr = some r) : rel n r := by
  obtain ⟨m, hm, haddr, hrel⟩ := h n.addr r hr
  rwa [halloc.address m n hm hn haddr] at hrel

theorem substituteAll_spec {ns : List Node}
    (ih : ∀ n ∈ ns, ∀ memo, alloc n → MemoOk alloc rel memo →
      rel n (substituteTrue K trueIxs n memo).1 ∧
        MemoOk alloc rel (substituteTrue K trueIxs n memo).2) :
    ∀ memo, (∀ n ∈ ns, alloc n) → MemoOk alloc rel memo →
      List.Forall₂ rel ns (substituteAll K trueIxs ns memo).1 ∧
        MemoOk alloc rel (substituteAll K trueIxs ns memo).2 := by
  induction ns with
  | nil =>
    intro memo _ hmemo
    exact ⟨.nil, hmemo⟩
  | cons n ns ihns =>
    intro memo halloc hmemo
    obtain ⟨hn, hns⟩ := List.forall_mem_cons.mp halloc
    obtain ⟨hrel, hmemo₁⟩ := ih n List.mem_cons_self memo hn hmemo
    obtain ⟨hrels, hmemo₂⟩ := ihns (fun m hm => ih m (List.mem_cons_of_mem n hm)) _ hns hmemo₁
    exact ⟨.cons hrel hrels, hmemo₂⟩

theorem substituteTrue_spec (halloc : Node.Addressed alloc) (hrel : Substitutes K trueIxs alloc rel)
    (n : Node) : ∀ memo, alloc n → MemoOk alloc rel memo →
      rel n (substituteTrue K trueIxs n memo).1 ∧
        MemoOk alloc rel (substituteTrue K trueIxs n memo).2 := by
  induction n with
  | mk addr type ix children ih =>
    intro memo hn hmemo
    have hinsert : ∀ {memo' : Memo} {r : Node}, MemoOk alloc rel memo' →
        rel (.mk addr type ix children) r →
          rel (.mk addr type ix children) r ∧ MemoOk alloc rel ((addr, r) :: memo') :=
      fun h hr => ⟨hr, h.cons hn hr⟩
    have hchildren : (type = .And ∨ type = .Or) →
        List.Forall₂ rel children (substituteAll K trueIxs children memo).1 ∧
          MemoOk alloc rel (substituteAll K trueIxs children memo).2 := by
      intro htype
      have hcs : ∀ c ∈ children, alloc c :=
        fun c hc => halloc.child c (.mk addr type ix children) ⟨htype, hc⟩ hn
      exact substituteAll_spec ih memo hcs hmemo
    unfold substituteTrue
    split
    next r hr => exact ⟨hmemo.lookup halloc hn hr, hmemo⟩
    next =>
      cases type with
      | True => exact hinsert hmemo (hrel.constant _ hn (Or.inl rfl))
      | False => exact hinsert hmemo (hrel.constant _ hn (Or.inr rfl))
      | Leaf =>
        apply hinsert hmemo
        by_cases htrue : ix ∈ trueIxs
        · rw [if_pos htrue]
          exact hrel.leafTrue _ hn rfl htrue
        · rw [if_neg htrue]
          by_cases hfalse : ix ^^^ 1 ∈ trueIxs
          · rw [if_pos hfalse]
            exact hrel.leafFalse _ hn rfl htrue hfalse
          · rw [if_neg hfalse]
            exact hrel.leafKept _ hn rfl htrue hfalse
      | And =>
        obtain ⟨hrels, hmemo'⟩ := hchildren (Or.inl rfl)
        exact hinsert hmemo' (hrel.and _ hn rfl _ hrels)
      | Or =>
        obtain ⟨hrels, hmemo'⟩ := hchildren (Or.inr rfl)
        exact hinsert hmemo' (hrel.or _ hn rfl _ hrels)

end

namespace Reading

variable {α : Type*}

/-- The reading that takes the leaves of `trueIxs` for true and their complements for false. -/
def substituted (A : Reading α) (trueIxs : Finset Nat) : Reading α :=
  { A with
    leaf := fun ix =>
      if ix ∈ trueIxs then A.top else if ix ^^^ 1 ∈ trueIxs then A.bottom else A.leaf ix }

end Reading

section

variable {K : Klay} {trueIxs : Finset Nat} {alloc : Node → Prop} {rel : Node → Node → Prop}
  {α : Type*} {A : Reading α} {lit : Int → α}

theorem alloc_of_forall₂ {ns rs : List Node} (h : List.Forall₂ (fun _ r => alloc r) ns rs) :
    ∀ r ∈ rs, alloc r := by
  induction h with
  | nil => simp
  | cons hr _ ih => exact List.forall_mem_cons.mpr ⟨hr, ih⟩

theorem substitutes_alloc (hK : K.Allocates alloc) :
    Substitutes K trueIxs alloc fun _ r => alloc r where
  constant _ hn _ := hn
  leafTrue _ _ _ _ := hK.trueNode
  leafFalse _ _ _ _ _ := hK.falseNode
  leafKept _ hn _ _ _ := hn
  and _ _ _ rs hrs := hK.andNode rs (alloc_of_forall₂ hrs)
  or _ _ _ rs hrs := hK.orNode rs (alloc_of_forall₂ hrs)

theorem read_of_forall₂ {B : Reading α} {ns rs : List Node}
    (h : List.Forall₂ (fun n r => r.read A = n.read B) ns rs) :
    rs.map (·.read A) = ns.map (·.read B) := by
  induction h with
  | nil => rfl
  | cons hr _ ih => rw [List.map_cons, List.map_cons, hr, ih]

/-- Substituting in the node amounts to substituting in what it is read as. -/
theorem substitutes_read (hA : K.Evaluates A lit) :
    Substitutes K trueIxs alloc fun n r => r.read A = n.read (A.substituted trueIxs) where
  constant n _ ht := by
    rcases ht with ht | ht
    · have htrue : n.isTrue = true := by simp [Node.isTrue, ht]
      rw [Node.read_true _ htrue, Node.read_true _ htrue]
      rfl
    · have hfalse : n.isFalse = true := by simp [Node.isFalse, ht]
      rw [Node.read_false _ hfalse, Node.read_false _ hfalse]
      rfl
  leafTrue n _ ht hix := by
    rw [Node.read_leaf _ ht, hA.trueNode]
    exact (if_pos hix).symm
  leafFalse n _ ht hix hneg := by
    rw [Node.read_leaf _ ht, hA.falseNode]
    exact ((if_neg hix).trans (if_pos hneg)).symm
  leafKept n _ ht hix hneg := by
    rw [Node.read_leaf _ ht, Node.read_leaf _ ht]
    exact ((if_neg hix).trans (if_neg hneg)).symm
  and n _ ht rs hrs := by
    rw [hA.andNode, read_of_forall₂ hrs, Node.read_and _ ht]
    rfl
  or n _ ht rs hrs := by
    rw [hA.orNode, read_of_forall₂ hrs, Node.read_or _ ht]
    rfl

theorem substituteTrue_rel (halloc : Node.Addressed alloc) (hrel : Substitutes K trueIxs alloc rel)
    {n : Node} (hn : alloc n) : rel n (substituteTrue K trueIxs n []).1 :=
  (substituteTrue_spec halloc hrel n [] hn memoOk_nil).1

theorem substituteTrue_read (hK : K.Allocates alloc) (hA : K.Evaluates A lit) {n : Node}
    (hn : alloc n) :
    alloc (substituteTrue K trueIxs n []).1 ∧
      (substituteTrue K trueIxs n []).1.read A = n.read (A.substituted trueIxs) :=
  ⟨substituteTrue_rel hK.addressed (substitutes_alloc hK) hn,
    substituteTrue_rel hK.addressed (substitutes_read hA) hn⟩

end

end Kompyle
