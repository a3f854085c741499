import Kompyle.DeterministicCircuit
import Kompyle.FieldRun

namespace Kompyle

open WeightedCount SemiringProgram

/-- What a value of the circuit field stands for: a function of the variables of its scope, and
the indices of the literals that went into it. -/
structure Formula where
  scope : Finset Nat
  holds : (Nat → Bool) → Bool
  lits : Finset Nat
  dependsOn : DependsOn holds (scope : Set Nat)

namespace Formula

def bottom (scope : Finset Nat) : Formula := ⟨scope, fun _ => false, ∅, fun _ _ _ => rfl⟩

def top : Formula := ⟨∅, fun _ => true, ∅, fun _ _ _ => rfl⟩

def literal (ix : Nat) : Formula where
  scope := {ix / 2}
  holds τ := Klay.leafHolds τ ix
  lits := {ix}
  dependsOn σ τ h := by
    have hv : σ (ix / 2) = τ (ix / 2) := h _ (by simp)
    simp only [Klay.leafHolds, hv]

def or (x y : Formula) : Formula where
  scope := x.scope ∪ y.scope
  holds τ := x.holds τ || y.holds τ
  lits := x.lits ∪ y.lits
  dependsOn σ τ h := by
    have hx : x.holds σ = x.holds τ := x.dependsOn fun v hv => h v (by simp [Finset.mem_coe.mp hv])
    have hy : y.holds σ = y.holds τ := y.dependsOn fun v hv => h v (by simp [Finset.mem_coe.mp hv])
    simp only [hx, hy]

def and (x y : Formula) : Formula where
  scope := x.scope ∪ y.scope
  holds τ := x.holds τ && y.holds τ
  lits := x.lits ∪ y.lits
  dependsOn σ τ h := by
    have hx : x.holds σ = x.holds τ := x.dependsOn fun v hv => h v (by simp [Finset.mem_coe.mp hv])
    have hy : y.holds σ = y.holds τ := y.dependsOn fun v hv => h v (by simp [Finset.mem_coe.mp hv])
    simp only [hx, hy]

/-- The formula with the literals of `trueIxs` made true. -/
def given (x : Formula) (trueIxs : Finset Nat) : Formula where
  scope := x.scope \ trueIxs.image (· / 2)
  holds τ := x.holds (WeightedCount.given (trueIxs.image (· / 2)) (setValue trueIxs) τ)
  lits := x.lits.filter fun ix => ix ∉ trueIxs ∧ ix ^^^ 1 ∉ trueIxs
  dependsOn σ τ h := by
    refine x.dependsOn fun v hv => ?_
    by_cases hfixed : v ∈ trueIxs.image (· / 2)
    · simp only [WeightedCount.given, if_pos hfixed]
    · simp only [WeightedCount.given, if_neg hfixed]
      exact h v (Finset.mem_coe.mpr (Finset.mem_sdiff.mpr ⟨Finset.mem_coe.mp hv, hfixed⟩))

/-- Alternatives over one scope. -/
structure Splits (x y : Formula) : Prop where
  scope : x.scope = y.scope
  exclusive : ∀ τ, x.holds τ = true → y.holds τ = false

/-- No literal went into the formula in both polarities. -/
def Consistent (x : Formula) : Prop := ∀ ix ∈ x.lits, ix ^^^ 1 ∉ x.lits

/-- The field operations on formulas, where sums are of alternatives, products are of formulas
over different variables, and divisors are other values, without contradictory literals. `index`
numbers the literals. A difference is of the counts only. -/
inductive Step (index : Int → Nat) (F : Regs Formula) : FieldOp → Regs Formula → Prop
  | zero (r : Nat) (scope : Finset Nat) : Step index F (.ring (.zero r)) (F.put r (bottom scope))
  | one (r : Nat) : Step index F (.ring (.one r)) (F.put r top)
  | lit (r : Nat) (l : Int) : Step index F (.ring (.lit r l)) (F.put r (literal (index l)))
  | dup {r a : Nat} {x : Formula} : F a = some x → Step index F (.ring (.dup r a)) (F.put r x)
  | add {r a b : Nat} {x y : Formula} : F a = some x → F b = some y → x.Splits y →
      Step index F (.ring (.add r a b)) (F.put r (x.or y))
  | addAssign {r a : Nat} {x y : Formula} : F r = some x → F a = some y → x.Splits y →
      Step index F (.ring (.addAssign r a)) (F.put r (x.or y))
  | mulAssign {r a : Nat} {x y : Formula} : F r = some x → F a = some y →
      Disjoint x.scope y.scope → Step index F (.ring (.mulAssign r a)) (F.put r (x.and y))
  | assign {r a : Nat} {y : Formula} : F a = some y →
      Step index F (.ring (.assign r a)) (F.put r y)
  | setZero (r : Nat) (scope : Finset Nat) :
      Step index F (.ring (.setZero r)) (F.put r (bottom scope))
  | setOne (r : Nat) : Step index F (.ring (.setOne r)) (F.put r top)
  | subAssign (r a : Nat) : Step index F (.subAssign r a) F
  | divAssign {r a : Nat} {x y : Formula} : r ≠ a → F r = some x → F a = some y → y.Consistent →
      Step index F (.divAssign r a) (F.put r (x.given y.lits))

end Formula

/-- What may be subtracted, and what may be divided by what, besides what `Formula.Step` asks. -/
structure Discipline where
  subtracts : Formula → Prop
  divides : Formula → Formula → Prop

namespace Discipline

def free : Discipline := ⟨fun _ => True, fun _ _ => True⟩

def Allows (D : Discipline) (F : Regs Formula) : FieldOp → Prop
  | .ring _ => True
  | .subAssign _ a => ∀ y, F a = some y → D.subtracts y
  | .divAssign r a => ∀ x y, F r = some x → F a = some y → D.divides x y

theorem ring_allows (D : Discipline) (F : Regs Formula) (op : Op Int) : D.Allows F (.ring op) :=
  trivial

theorem free_allows (F : Regs Formula) (op : FieldOp) : free.Allows F op := by
  cases op with
  | ring op => exact ring_allows free F op
  | subAssign => exact fun _ _ => trivial
  | divAssign => exact fun _ _ _ _ => trivial

end Discipline

/-- The registers of a run, and what they stand for. -/
inductive Stands (K : Klay) : Regs FCircuit → Regs Formula → Prop
  | empty : Stands K (fun _ => none) fun _ => none
  | step {s t : Regs FCircuit} {F G : Regs Formula} {op : FieldOp} : Stands K s F →
      Formula.Step K.internalVal F op G → fieldStep K s op = some t → Stands K t G

/-- A relation between values and what they stand for that every allowed operation keeps. -/
structure Carries (K : Klay) (D : Discipline) (rel : FCircuit → Formula → Prop) : Prop where
  bottom : ∀ scope, rel (FGenCircuit.zero K) (.bottom scope)
  top : rel (FGenCircuit.one K) .top
  literal : ∀ l, rel (FGenCircuit.litField K l) (.literal (K.internalVal l))
  add : ∀ {x y : FCircuit} {a b : Formula}, rel x a → rel y b → a.Splits b →
    rel (x.add K y) (a.or b)
  mul : ∀ {x y : FCircuit} {a b : Formula}, rel x a → rel y b → Disjoint a.scope b.scope →
    rel (x.mulAssign K y) (a.and b)
  sub : ∀ {x y : FCircuit} {a b : Formula}, rel x a → rel y b → D.subtracts b →
    rel (x.subAssign y) a
  div : ∀ {x y : FCircuit} {a b : Formula}, rel x a → rel y b → b.Consistent → D.divides a b →
    rel (x.divAssign K y) (a.given b.lits)

section

variable {K : Klay} {D : Discipline} {rel : FCircuit → Formula → Prop}

theorem Carries.step (hC : Carries K D rel) {s t : Regs FCircuit} {F G : Regs Formula}
    {op : FieldOp} (h : RegsRel rel s F) (habs : Formula.Step K.internalVal F op G)
    (hallows : D.Allows F op) (hstep : fieldStep K s op = some t) : RegsRel rel t G := by
  have hrel : ∀ {r : Nat} {x : FCircuit} {a : Formula}, s r = some x → F r = some a →
      rel x a := by
    intro r x a hx ha
    obtain ⟨b, hb, hxb⟩ := h r x hx
    obtain rfl : a = b := Option.some.inj (ha.symm.trans hb)
    exact hxb
  cases habs with
  | zero r scope =>
    obtain rfl := Option.some.inj hstep
    exact h.put r (hC.bottom scope)
  | one r =>
    obtain rfl := Option.some.inj hstep
    exact h.put r hC.top
  | lit r l =>
    obtain rfl := Option.some.inj hstep
    exact h.put r (hC.literal l)
  | dup ha =>
    obtain ⟨x, hx, rfl⟩ := Option.map_eq_some_iff.mp hstep
    exact h.put _ (hrel hx ha)
  | add ha hb hsplit =>
    obtain ⟨x, hx, hstep⟩ := Option.bind_eq_some_iff.mp hstep
    obtain ⟨y, hy, rfl⟩ := Option.map_eq_some_iff.mp hstep
    exact h.put _ (hC.add (hrel hx ha) (hrel hy hb) hsplit)
  | addAssign ha hb hsplit =>
    obtain ⟨x, hx, hstep⟩ := Option.bind_eq_some_iff.mp hstep
    obtain ⟨y, hy, rfl⟩ := Option.map_eq_some_iff.mp hstep
    exact h.put _ (hC.add (hrel hx ha) (hrel hy hb) hsplit)
  | mulAssign ha hb hdisj =>
    obtain ⟨x, hx, hstep⟩ := Option.bind_eq_some_iff.mp hstep
    obtain ⟨y, hy, rfl⟩ := Option.map_eq_some_iff.mp hstep
    exact h.put _ (hC.mul (hrel hx ha) (hrel hy hb) hdisj)
  | assign hb =>
    obtain ⟨x, -, hstep⟩ := Option.bind_eq_some_iff.mp hstep
    obtain ⟨y, hy, rfl⟩ := Option.map_eq_some_iff.mp hstep
    exact h.put _ (hrel hy hb)
  | setZero r scope =>
    obtain ⟨x, -, rfl⟩ := Option.map_eq_some_iff.mp hstep
    exact h.put r (hC.bottom scope)
  | setOne r =>
    obtain ⟨x, -, rfl⟩ := Option.map_eq_some_iff.mp hstep
    exact h.put r hC.top
  | subAssign r a =>
    obtain ⟨x, hx, hstep⟩ := Option.bind_eq_some_iff.mp hstep
    obtain ⟨y, hy, rfl⟩ := Option.map_eq_some_iff.mp hstep
    obtain ⟨b, hb, hxb⟩ := h r x hx
    obtain ⟨c, hc, hyc⟩ := h a y hy
    intro i z hz
    by_cases hi : i = r
    · subst hi
      rw [Regs.put_self] at hz
      exact ⟨b, hb, Option.some.inj hz ▸ hC.sub hxb hyc (hallows c hc)⟩
    · rw [Regs.put_of_ne s _ hi] at hz
      exact h i z hz
  | divAssign _ ha hb hcons =>
    obtain ⟨x, y, hx, hy, -, rfl⟩ := divAssign_cases hstep
    exact h.put _ (hC.div (hrel hx ha) (hrel hy hb) hcons (hallows _ _ ha hb))

theorem Carries.run (hC : Carries K .free rel) {s : Regs FCircuit} {F : Regs Formula}
    (h : Stands K s F) : RegsRel rel s F := by
  induction h with
  | empty =>
    intro r x hx
    cases hx
  | step _ habs hstep ih => exact hC.step ih habs (Discipline.free_allows _ _) hstep

end

/-- The value is a circuit for the formula, False or over exactly its scope, and has the formula's
literals. -/
structure Means (alloc : Node → Prop) (x : FCircuit) (a : Formula) : Prop where
  node : alloc x.node
  sdnnf : x.node.Sdnnf
  scope : x.node.isFalse = true ∨ x.node.vars = a.scope
  denote : ∀ τ, x.node.denote (Klay.leafHolds τ) = a.holds τ
  lits : x.lits = a.lits

section

variable {K : Klay} {alloc : Node → Prop} {x y : FCircuit} {a b : Formula}

theorem forall_mem_pair {P : Node → Prop} {m n : Node} :
    (∀ x ∈ [m, n], P x) ↔ P m ∧ P n := by
  simp

theorem sdnnf_constant {n : Node} (h : n.isTrue = true ∨ n.isFalse = true) : n.Sdnnf :=
  ⟨Node.structured_constant h, Node.deterministic_constant h⟩

theorem substituted_false {trueIxs : Finset Nat} {n : Node} (h : n.isFalse = true) :
    substituted K trueIxs n = n := by
  obtain ⟨addr, type, ix, children⟩ := n
  obtain rfl : type = .False := of_decide_eq_true h
  rfl

theorem means_bottom (hK : K.Simplifies) (halloc : K.Allocates alloc) (scope : Finset Nat) :
    Means alloc (FGenCircuit.zero K) (.bottom scope) where
  node := halloc.falseNode
  sdnnf := sdnnf_constant (.inr hK.falseNode)
  scope := .inl hK.falseNode
  denote _ := Node.read_false _ hK.falseNode
  lits := rfl

theorem means_top (hK : K.Simplifies) (halloc : K.Allocates alloc) :
    Means alloc (FGenCircuit.one K) .top where
  node := halloc.trueNode
  sdnnf := sdnnf_constant (.inl hK.trueNode)
  scope := .inr (Node.vars_true hK.trueNode)
  denote _ := Node.read_true _ hK.trueNode
  lits := rfl

theorem means_literal (hK : K.Simplifies) (halloc : K.Allocates alloc) (l : Int) :
    Means alloc (FGenCircuit.litField K l) (.literal (K.internalVal l)) := by
  obtain ⟨ht, hix⟩ := hK.literalNode l
  have ha : (K.literalNode l).type ≠ .And := by simp [ht]
  have ho : (K.literalNode l).type ≠ .Or := by simp [ht]
  refine ⟨halloc.literalNode l, ⟨Node.structured_leaf ha ho, Node.deterministic_leaf ha ho⟩,
    .inr ?_, fun τ => ?_, rfl⟩
  · show (K.literalNode l).vars = _
    rw [Node.vars_leaf ht, hix]
    rfl
  · show (K.literalNode l).denote _ = _
    rw [Node.denote, Node.read_leaf _ ht, hix]
    rfl

theorem Means.exclusive (hx : Means alloc x a) (hy : Means alloc y b) (h : a.Splits b) :
    x.node.Exclusive y.node := by
  intro σ hσ htrue
  rw [eq_leafHolds hσ] at htrue ⊢
  rw [hx.denote] at htrue
  rw [hy.denote]
  exact h.exclusive _ htrue

theorem Means.add (hK : K.Simplifies) (hden : K.Denotes) (halloc : K.Allocates alloc)
    (hx : Means alloc x a) (hy : Means alloc y b) (h : a.Splits b) :
    Means alloc (x.add K y) (a.or b) := by
  have hunion : a.scope ∪ b.scope = a.scope := by
    rw [← h.scope]
    exact Finset.union_self _
  have hstruct := Klay.orOf_structured (hK.orNode [x.node, y.node])
    (forall_mem_pair.mpr ⟨hx.sdnnf.structured, hy.sdnnf.structured⟩)
    (forall_mem_pair.mpr ⟨hx.scope, h.scope ▸ hy.scope⟩)
  have hdet := Node.deterministic_orOf (hK.orNode [x.node, y.node])
    (forall_mem_pair.mpr ⟨hx.sdnnf.deterministic, hy.sdnnf.deterministic⟩)
    (List.pairwise_pair.mpr (hx.exclusive hy h))
  refine ⟨halloc.add hx.node hy.node, ⟨hstruct.1, hdet⟩, ?_, fun τ => ?_, ?_⟩
  · show (K.orNode _).isFalse = true ∨ (K.orNode _).vars = a.scope ∪ b.scope
    rw [hunion]
    exact hstruct.2
  · have hor := denote_or (hden _ (leafHolds_complementary τ)) [x.node, y.node]
    rw [List.any_cons, List.any_cons, List.any_nil, Bool.or_false, hx.denote, hy.denote] at hor
    exact hor
  · show x.lits ∪ y.lits = a.lits ∪ b.lits
    rw [hx.lits, hy.lits]

theorem Means.disjoint (hx : Means alloc x a) (hy : Means alloc y b)
    (h : Disjoint a.scope b.scope) : Disjoint x.node.vars y.node.vars := by
  rcases hx.scope with hf | hvars
  · rw [Node.vars_false hf]
    exact Finset.disjoint_empty_left _
  · rcases hy.scope with hf | hvars'
    · rw [Node.vars_false hf]
      exact Finset.disjoint_empty_right _
    · rwa [hvars, hvars']

theorem Means.mul (hK : K.Simplifies) (hden : K.Denotes) (halloc : K.Allocates alloc)
    (hx : Means alloc x a) (hy : Means alloc y b) (h : Disjoint a.scope b.scope) :
    Means alloc (x.mulAssign K y) (a.and b) := by
  obtain ⟨hstruct, hscope⟩ := Klay.andOf_structured (hK.andNode [x.node, y.node])
    (forall_mem_pair.mpr ⟨hx.sdnnf.structured, hy.sdnnf.structured⟩)
    (List.pairwise_pair.mpr (hx.disjoint hy h))
  have hdet := Node.deterministic_andOf (hK.andNode [x.node, y.node])
    (forall_mem_pair.mpr ⟨hx.sdnnf.deterministic, hy.sdnnf.deterministic⟩)
  refine ⟨halloc.mulAssign hx.node hy.node, ⟨hstruct, hdet⟩, ?_, fun τ => ?_, ?_⟩
  · refine hscope.imp id fun ⟨hnone, hvars⟩ => ?_
    obtain ⟨hfx, hfy⟩ := forall_mem_pair.mp hnone
    have hvx : x.node.vars = a.scope := hx.scope.resolve_left (by simp [hfx])
    have hvy : y.node.vars = b.scope := hy.scope.resolve_left (by simp [hfy])
    show (K.andNode [x.node, y.node]).vars = a.scope ∪ b.scope
    rw [hvars, ← hvx, ← hvy]
    simp [unions]
  · have hand := denote_and (hden _ (leafHolds_complementary τ)) [x.node, y.node]
    rw [List.all_cons, List.all_cons, List.all_nil, Bool.and_true, hx.denote, hy.denote] at hand
    exact hand
  · show x.lits ∪ y.lits = a.lits ∪ b.lits
    rw [hx.lits, hy.lits]

theorem Means.div (hK : K.Simplifies) (hden : K.Denotes) (halloc : K.Allocates alloc)
    (hx : Means alloc x a) (hy : Means alloc y b) (h : b.Consistent) :
    Means alloc (x.divAssign K y) (a.given b.lits) := by
  have hS : ∀ ix ∈ y.lits, ix ^^^ 1 ∉ y.lits := by
    rw [hy.lits]
    exact h
  have hcond : Conditioned y.lits x.node (x.divAssign K y).node :=
    substituteTrue_rel halloc.addressed (substitutes_conditioned hK) hx.node
  have hkeeps : KeepsExclusive y.lits x.node (x.divAssign K y).node :=
    substituteTrue_rel halloc.addressed (substitutes_exclusive hK hden hS) hx.node
  obtain ⟨hstruct, hvars⟩ := hcond hx.sdnnf.structured
  refine ⟨halloc.divAssign hx.node y, ⟨hstruct, hkeeps.2 hx.sdnnf.deterministic⟩, ?_,
    fun τ => ?_, ?_⟩
  · rcases hvars with hf | hvars
    · exact .inl hf
    · rcases hx.scope with hf | hscope
      · left
        have hsame : (x.divAssign K y).node = substituted K y.lits x.node :=
          substituteTrue_rel halloc.addressed substitutes_substituted hx.node
        rw [hsame, substituted_false hf]
        exact hf
      · right
        rw [hvars, hscope, hy.lits]
        rfl
  · rw [hkeeps.1 _ (leafHolds_complementary τ), funext (setTrue_leafHolds hS τ), hx.denote,
      hy.lits]
    rfl
  · show x.lits.filter _ = a.lits.filter _
    rw [hx.lits, hy.lits]

theorem means_carried (hK : K.Simplifies) (hden : K.Denotes) (halloc : K.Allocates alloc)
    (D : Discipline) : Carries K D (Means alloc) where
  bottom := means_bottom hK halloc
  top := means_top hK halloc
  literal := means_literal hK halloc
  add hx hy h := hx.add hK hden halloc hy h
  mul hx hy h := hx.mul hK hden halloc hy h
  sub hx _ _ := ⟨hx.node, hx.sdnnf, hx.scope, hx.denote, hx.lits⟩
  div hx hy h _ := hx.div hK hden halloc hy h

theorem Stands.allMean (hK : K.Simplifies) (hden : K.Denotes) (halloc : K.Allocates alloc)
    {s : Regs FCircuit} {F : Regs Formula} (h : Stands K s F) : RegsRel (Means alloc) s F :=
  (means_carried hK hden halloc .free).run h

/-- The value of the node is the weighted count of the formula over its scope. -/
theorem Means.counts {R : Type*} [CommSemiring R] (w : Nat → R) (h : Means alloc x a) :
    Counts (leafWeight w) a.scope a.holds (x.node.value w) := by
  rcases h.scope with hf | hvars
  · have hvalue : x.node.value w = 0 := Node.read_false _ hf
    have hdenote : ∀ τ, x.node.denote (Klay.leafHolds τ) = false := fun τ => Node.read_false _ hf
    rw [hvalue]
    exact (Counts.bottom _ _).congr fun τ => (hdenote τ).symm.trans (h.denote τ)
  · rw [← hvars]
    exact (h.sdnnf.counts w).congr h.denote

/-- Whatever field operations Ganak makes, as long as it adds alternatives over the same
variables, multiplies over different ones and divides by other values, of consistent literals and
of a count that is not zero, every value it holds is a deterministic, decomposable and smooth circuit for what it stands for, is False or mentions
exactly the variables of its scope, and is worth the weighted count over them. -/
theorem stands_counts {R : Type*} [CommSemiring R] (w : Nat → R) (hK : K.Simplifies)
    (hden : K.Denotes) (halloc : K.Allocates alloc) {s : Regs FCircuit} {F : Regs Formula}
    (h : Stands K s F) {r : Nat} {x : FCircuit} (hx : s r = some x) :
    ∃ a, F r = some a ∧ x.node.Decomposable ∧ x.node.Smooth ∧ x.node.Deterministic ∧
      (x.node.isFalse = true ∨ x.node.vars = a.scope) ∧
      (∀ σ, Complementary σ → x.node.denote σ = a.holds fun v => σ (2 * v)) ∧
      x.node.value w = count (leafWeight w) a.scope a.holds := by
  obtain ⟨a, ha, hmeans⟩ := h.allMean hK hden halloc r x hx
  refine ⟨a, ha, hmeans.sdnnf.structured.1, hmeans.sdnnf.structured.2,
    hmeans.sdnnf.deterministic, hmeans.scope, fun σ hσ => ?_, (hmeans.counts w).count.symm⟩
  rw [eq_leafHolds hσ, hmeans.denote]
  congr 1
  funext v
  simp [Klay.leafHolds]

end

def literalRegs : Regs FCircuit :=
  ((Regs.put (fun _ => none) 0 (FGenCircuit.litField Klay.reference 1)).put 1
    (FGenCircuit.litField Klay.reference (-1))).put 2 (FGenCircuit.litField Klay.reference 2)

def literalFormulas : Regs Formula :=
  ((Regs.put (fun _ => none) 0 (.literal 2)).put 1 (.literal 3)).put 2 (.literal 4)

/-- Either value of the first variable, and the second variable. -/
def eitherRegs : Regs FCircuit :=
  literalRegs.put 0 ((FGenCircuit.litField Klay.reference 1).addAssign Klay.reference
    (FGenCircuit.litField Klay.reference (-1)))

def eitherFormulas : Regs Formula := literalFormulas.put 0 ((Formula.literal 2).or (.literal 3))

theorem literals_stand : Stands Klay.reference literalRegs literalFormulas :=
  .step (.step (.step .empty (.lit 0 1) rfl) (.lit 1 (-1)) rfl) (.lit 2 2) rfl

theorem either_stands : Stands Klay.reference eitherRegs eitherFormulas := by
  have hsplit : (Formula.literal 2).Splits (.literal 3) := by
    refine ⟨rfl, fun τ hτ => ?_⟩
    have htrue : τ 1 = true := by simpa [Formula.literal, Klay.leafHolds] using hτ
    simp [Formula.literal, Klay.leafHolds, htrue]
  have hadd : Formula.Step Klay.reference.internalVal literalFormulas (.ring (.addAssign 0 1))
      eitherFormulas := .addAssign rfl rfl hsplit
  exact .step literals_stand hadd rfl

theorem either_counts :
    let w : Nat → Nat := fun ix => if ix = 2 then 3 else 5
    let x := (FGenCircuit.litField Klay.reference 1).addAssign Klay.reference
      (FGenCircuit.litField Klay.reference (-1))
    (∃ a, eitherFormulas 0 = some a ∧ x.node.Decomposable ∧ x.node.Smooth ∧
      x.node.Deterministic ∧ (x.node.isFalse = true ∨ x.node.vars = a.scope) ∧
      (∀ σ, Complementary σ → x.node.denote σ = a.holds fun v => σ (2 * v)) ∧
      x.node.value w = count (leafWeight w) a.scope a.holds) ∧ x.node.value w = 8 := by
  intro w x
  refine ⟨stands_counts w Klay.reference_simplifies reference_complementary
    Klay.reference_allocates either_stands rfl, ?_⟩
  decide

namespace Formula

/-- A product of literals of different variables. -/
structure Cube (x : Formula) : Prop where
  scope : x.scope = x.lits.image (· / 2)
  consistent : x.Consistent
  holds : ∀ τ, x.holds τ = literalsHold x.lits x.scope τ

theorem cube_literal (ix : Nat) : (literal ix).Cube := by
  refine ⟨rfl, fun i hi hneg => ?_, fun τ => ?_⟩
  · have hi' := Finset.mem_singleton.mp hi
    have hneg' := Finset.mem_singleton.mp hneg
    exact xor_one_ne i (hneg'.trans hi'.symm)
  · simp [literal, literalsHold]

theorem Cube.and {x y : Formula} (hx : x.Cube) (hy : y.Cube) (h : Disjoint x.scope y.scope) :
    (x.and y).Cube := by
  have hmem : ∀ {z : Formula}, z.Cube → ∀ ix ∈ z.lits, ix / 2 ∈ z.scope := by
    intro z hz ix hix
    rw [hz.scope]
    exact Finset.mem_image_of_mem _ hix
  refine ⟨?_, ?_, fun τ => ?_⟩
  · show x.scope ∪ y.scope = (x.lits ∪ y.lits).image (· / 2)
    rw [Finset.image_union, ← hx.scope, ← hy.scope]
  · intro ix hix hneg
    rcases Finset.mem_union.mp hix with hix | hix <;> rcases Finset.mem_union.mp hneg with hneg | hneg
    · exact hx.consistent ix hix hneg
    · have hvar := hmem hy _ hneg
      rw [xor_one_div] at hvar
      exact Finset.disjoint_left.mp h (hmem hx ix hix) hvar
    · have hvar := hmem hx _ hneg
      rw [xor_one_div] at hvar
      exact Finset.disjoint_left.mp h hvar (hmem hy ix hix)
    · exact hy.consistent ix hix hneg
  · have hall : ∀ {z : Formula}, z.Cube → (z.holds τ = true ↔
        ∀ ix ∈ z.lits, Klay.leafHolds τ ix = true) := by
      intro z hz
      rw [hz.holds, literalsHold, decide_eq_true_eq]
      exact forall₂_congr fun ix hix => by simp [hmem hz ix hix]
    show (x.holds τ && y.holds τ) = literalsHold (x.lits ∪ y.lits) (x.scope ∪ y.scope) τ
    rw [Bool.eq_iff_iff, Bool.and_eq_true, hall hx, hall hy, literalsHold, decide_eq_true_eq]
    constructor
    · rintro ⟨h₁, h₂⟩ ix hix -
      rcases Finset.mem_union.mp hix with hix | hix
      · exact h₁ ix hix
      · exact h₂ ix hix
    · intro hunion
      refine ⟨fun ix hix => hunion ix (Finset.mem_union_left _ hix) ?_,
        fun ix hix => hunion ix (Finset.mem_union_right _ hix) ?_⟩
      · exact Finset.mem_union_left _ (hmem hx ix hix)
      · exact Finset.mem_union_right _ (hmem hy ix hix)

/-- Dividing out a product of literals leaves what it was multiplied into. -/
theorem Cube.given_and {x y : Formula} (hy : y.Cube) (h : Disjoint x.scope y.scope) :
    ((x.and y).given y.lits).scope = x.scope ∧
      ∀ τ, ((x.and y).given y.lits).holds τ = x.holds τ := by
  constructor
  · show (x.scope ∪ y.scope) \ y.lits.image (· / 2) = x.scope
    rw [← hy.scope, Finset.union_sdiff_right]
    exact Finset.sdiff_eq_self_of_disjoint h
  · intro τ
    have hx : x.holds (WeightedCount.given (y.lits.image (· / 2)) (setValue y.lits) τ) =
        x.holds τ := by
      refine x.dependsOn fun v hv => if_neg ?_
      rw [← hy.scope]
      exact Finset.disjoint_left.mp h (Finset.mem_coe.mp hv)
    have htrue : y.holds (WeightedCount.given (y.lits.image (· / 2)) (setValue y.lits) τ) =
        true := by
      rw [hy.holds, ← agrees_eq_literalsHold hy.consistent, agrees, decide_eq_true_eq]
      intro v hv
      exact if_pos (Finset.mem_inter.mp hv).2
    show (x.holds _ && y.holds _) = x.holds τ
    rw [hx, htrue, Bool.and_true]

end Formula

section

variable {K : Klay} {alloc : Node → Prop}

/-- Multiplying a product of literals into a value and dividing it out again leaves the value as
it was: what it denotes, what it is worth under all weights, and the variables it mentions. -/
theorem mul_div_restores {R : Type*} [CommSemiring R] (w : Nat → R) (hK : K.Simplifies)
    (hden : K.Denotes) (halloc : K.Allocates alloc) {s t u : Regs FCircuit} {F : Regs Formula}
    (h : Stands K s F) {r c : Nat} (hrc : r ≠ c) {a b : Formula} (ha : F r = some a)
    (hb : F c = some b) (hcube : b.Cube) (hdisj : Disjoint a.scope b.scope)
    (hmul : fieldStep K s (.ring (.mulAssign r c)) = some t)
    (hdiv : fieldStep K t (.divAssign r c) = some u) {x : FCircuit} (hx : s r = some x) :
    ∃ z, u r = some z ∧ z.node.Sdnnf ∧ (z.node.isFalse = true ∨ z.node.vars = a.scope) ∧
      (∀ σ, Complementary σ → z.node.denote σ = x.node.denote σ) ∧
      z.node.value w = x.node.value w := by
  have hmeans := h.allMean hK hden halloc
  obtain ⟨a', ha', hxa⟩ := hmeans r x hx
  obtain rfl : a = a' := Option.some.inj (ha.symm.trans ha')
  obtain ⟨x', hx', hmul⟩ := Option.bind_eq_some_iff.mp hmul
  obtain ⟨y, hy, rfl⟩ := Option.map_eq_some_iff.mp hmul
  obtain rfl : x = x' := Option.some.inj (hx.symm.trans hx')
  obtain ⟨b', hb', hyb⟩ := hmeans c y hy
  obtain rfl : b = b' := Option.some.inj (hb.symm.trans hb')
  obtain ⟨p, q, hp, hq, -, rfl⟩ := divAssign_cases hdiv
  have hprod : x.mulAssign K y = p := Option.some.inj ((Regs.put_self s r _).symm.trans hp)
  have hdivisor : y = q := by
    rw [Regs.put_of_ne s _ hrc.symm, hy] at hq
    exact Option.some.inj hq
  rw [← hprod, ← hdivisor]
  have hz := (hxa.mul hK hden halloc hyb hdisj).div hK hden halloc hyb hcube.consistent
  obtain ⟨hscope, hholds⟩ := hcube.given_and hdisj
  refine ⟨_, Regs.put_self _ r _, hz.sdnnf, by rw [← hscope]; exact hz.scope,
    fun σ hσ => ?_, ?_⟩
  · rw [eq_leafHolds hσ, hz.denote, hxa.denote, hholds]
  · have hcount := (hz.counts w).congr hholds
    rw [hscope] at hcount
    exact hcount.unique (hxa.counts w)

end

/-- The product of two literals, next to either value of a third. -/
def factorRegs : Regs FCircuit :=
  (eitherRegs.put 3 (FGenCircuit.litField Klay.reference 3)).put 2
    ((FGenCircuit.litField Klay.reference 2).mulAssign Klay.reference
      (FGenCircuit.litField Klay.reference 3))

def factorFormulas : Regs Formula :=
  (eitherFormulas.put 3 (.literal 6)).put 2 ((Formula.literal 4).and (.literal 6))

theorem factor_stands : Stands Klay.reference factorRegs factorFormulas := by
  have hmul : Formula.Step Klay.reference.internalVal (eitherFormulas.put 3 (.literal 6))
      (.ring (.mulAssign 2 3)) factorFormulas := .mulAssign rfl rfl (by decide)
  exact .step (.step either_stands (.lit 3 3) rfl) hmul rfl

theorem either_restored : ∃ t u z, fieldStep Klay.reference factorRegs (.ring (.mulAssign 0 2)) =
      some t ∧ fieldStep Klay.reference t (.divAssign 0 2) = some u ∧ u 0 = some z ∧
      z.node.value (fun ix => if ix = 2 then 3 else 5) = 8 := by
  have hcube : ((Formula.literal 4).and (.literal 6)).Cube :=
    (Formula.cube_literal 4).and (Formula.cube_literal 6) (by decide)
  obtain ⟨z, hz, -, -, -, hvalue⟩ := mul_div_restores (fun ix => if ix = 2 then 3 else 5)
    Klay.reference_simplifies reference_complementary Klay.reference_allocates factor_stands
    (r := 0) (c := 2) (by decide) rfl rfl hcube (by decide) rfl rfl rfl
  exact ⟨_, _, z, rfl, rfl, hz, hvalue⟩

end Kompyle
