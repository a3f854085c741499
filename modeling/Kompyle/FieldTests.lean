import Kompyle.FieldLockstep
import Kompyle.FormulaRun

namespace Kompyle

open ListLoops SemiringProgram WeightedCount

namespace FCircuit

def isOne (x : FCircuit) : Bool := x.node.isTrue

/-- `operator==`: the pointers are compared. -/
def eq (x o : FCircuit) : Bool := x.node.addr == o.node.addr

end FCircuit

/-- The node is the False node or has a model. -/
def Live (n : Node) : Prop := n.isFalse = true ∨ ∃ τ, n.denote (Klay.leafHolds τ) = true

theorem denote_dependsOn (n : Node) :
    DependsOn (fun τ => n.denote (Klay.leafHolds τ)) (n.vars : Set Nat) := by
  intro σ τ h
  refine Node.read_congr (A := Node.boolean (Klay.leafHolds σ))
    (B := Node.boolean (Klay.leafHolds τ)) rfl rfl rfl rfl n fun ix hix => ?_
  have hv : σ (ix / 2) = τ (ix / 2) :=
    h _ (Finset.mem_coe.mpr (Finset.mem_image_of_mem _ hix))
  show Klay.leafHolds σ ix = Klay.leafHolds τ ix
  rw [Klay.leafHolds, Klay.leafHolds, hv]

theorem Live.model {n : Node} (h : Live n) (hf : n.isFalse = false) :
    ∃ τ, n.denote (Klay.leafHolds τ) = true := h.resolve_left (by simp [hf])

theorem live_true {n : Node} (h : n.isTrue = true) : Live n :=
  .inr ⟨fun _ => false, Node.read_true _ h⟩

theorem live_leaf {n : Node} (h : n.type = .Leaf) : Live n := by
  refine .inr ⟨fun _ => decide (n.ix % 2 = 0), ?_⟩
  rw [Node.denote, Node.read_leaf _ h]
  simp [Node.boolean, Klay.leafHolds]

section

variable {K : Klay} {alloc : Node → Prop}

/-- Models of conjuncts over different variables make one of the conjunction. -/
theorem live_and (hK : K.Simplifies) (hden : K.Denotes) {xs : List Node}
    (hlive : ∀ x ∈ xs, Live x) (hdisj : xs.Pairwise fun x y => Disjoint x.vars y.vars) :
    Live (K.andNode xs) := by
  by_cases hf : (K.andNode xs).isFalse = true
  · exact .inl hf
  · have hnone : ∀ x ∈ xs, x.isFalse = false := by
      intro x hx
      by_contra hxf
      exact hf ((hK.testsZero.andNode xs).mpr ⟨x, hx, by simpa using hxf⟩)
    have hmodel : ∀ x : Node, ∃ τ, x ∈ xs → x.denote (Klay.leafHolds τ) = true := by
      intro x
      by_cases hx : x ∈ xs
      · obtain ⟨τ, hτ⟩ := (hlive x hx).model (hnone x hx)
        exact ⟨τ, fun _ => hτ⟩
      · exact ⟨fun _ => false, fun h => absurd h hx⟩
    choose f hf using hmodel
    obtain ⟨σ, hσ⟩ := exists_glue f hdisj
    refine .inr ⟨σ, ?_⟩
    rw [denote_and (hden _ (leafHolds_complementary σ)), List.all_eq_true]
    intro x hx
    have hsame : x.denote (Klay.leafHolds σ) = x.denote (Klay.leafHolds (f x)) :=
      denote_dependsOn x fun v hv => hσ x hx v (Finset.mem_coe.mp hv)
    rw [hsame, hf x hx]

theorem live_or (hK : K.Simplifies) (hden : K.Denotes) {xs : List Node}
    (hlive : ∀ x ∈ xs, Live x) : Live (K.orNode xs) := by
  by_cases hf : ∀ x ∈ xs, x.isFalse = true
  · exact .inl ((hK.testsZero.orNode xs).mpr hf)
  · push Not at hf
    obtain ⟨x, hx, hxf⟩ := hf
    obtain ⟨τ, hτ⟩ := (hlive x hx).model (by simpa using hxf)
    refine .inr ⟨τ, ?_⟩
    rw [denote_or (hden _ (leafHolds_complementary τ)), List.any_eq_true]
    exact ⟨x, hx, hτ⟩

/-- Substitution rebuilds every inner node, and so leaves no unsatisfiable one but False. -/
def Revives (trueIxs : Finset Nat) (n r : Node) : Prop :=
  Conditioned trueIxs n r ∧ (n.Structured → Live r)

theorem revived_children {trueIxs : Finset Nat} {n : Node} (ht : n.type = .And ∨ n.type = .Or)
    {rs : List Node} (hrs : List.Forall₂ (Revives trueIxs) n.children rs) (hn : n.Structured) :
    ∀ r ∈ rs, Live r := by
  intro r hr
  obtain ⟨c, hc, hcr⟩ := exists_of_forall₂ hrs hr
  exact hcr.2 (hn.child ⟨ht, hc⟩)

theorem substitutes_revives (hK : K.Simplifies) (hden : K.Denotes) {trueIxs : Finset Nat} :
    Substitutes K trueIxs alloc (Revives trueIxs) where
  constant n hn ht := by
    refine ⟨(substitutes_conditioned hK).constant n hn ht, fun _ => ?_⟩
    rcases ht with ht | ht
    · exact live_true (by simp [Node.isTrue, ht])
    · exact .inl (by simp [Node.isFalse, ht])
  leafTrue n hn ht hix :=
    ⟨(substitutes_conditioned hK).leafTrue n hn ht hix, fun _ => live_true hK.trueNode⟩
  leafFalse n hn ht hix hneg :=
    ⟨(substitutes_conditioned hK).leafFalse n hn ht hix hneg, fun _ => .inl hK.falseNode⟩
  leafKept n hn ht hix hneg :=
    ⟨(substitutes_conditioned hK).leafKept n hn ht hix hneg, fun _ => live_leaf ht⟩
  and n hn ht rs hrs := by
    have hcond : List.Forall₂ (Conditioned trueIxs) n.children rs := hrs.imp fun _ _ h => h.1
    refine ⟨(substitutes_conditioned hK).and n hn ht rs hcond, fun h => ?_⟩
    have hcs : ∀ c ∈ n.children, c.Structured := fun c hc => h.child ⟨.inl ht, hc⟩
    exact live_and hK hden (revived_children (.inl ht) hrs h)
      (conditioned_pairwise hcond hcs (h.1 n .refl ht))
  or n hn ht rs hrs := by
    have hcond : List.Forall₂ (Conditioned trueIxs) n.children rs := hrs.imp fun _ _ h => h.1
    refine ⟨(substitutes_conditioned hK).or n hn ht rs hcond, fun h => ?_⟩
    exact live_or hK hden (revived_children (.inr ht) hrs h)

theorem live_carried (hK : K.Simplifies) (hden : K.Denotes) (halloc : K.Allocates alloc)
    (D : Discipline) : Carries K D fun x a => Means alloc x a ∧ Live x.node where
  bottom scope := ⟨means_bottom hK halloc scope, .inl hK.falseNode⟩
  top := ⟨means_top hK halloc, live_true hK.trueNode⟩
  literal l := ⟨means_literal hK halloc l, live_leaf (hK.literalNode l).1⟩
  add hx hy h :=
    ⟨hx.1.add hK hden halloc hy.1 h, live_or hK hden (forall_mem_pair.mpr ⟨hx.2, hy.2⟩)⟩
  mul hx hy h :=
    ⟨hx.1.mul hK hden halloc hy.1 h, live_and hK hden (forall_mem_pair.mpr ⟨hx.2, hy.2⟩)
      (List.pairwise_pair.mpr (hx.1.disjoint hy.1 h))⟩
  sub hx hy h := ⟨(means_carried hK hden halloc D).sub hx.1 hy.1 h, hx.2⟩
  div {x y a b} hx hy h _ := by
    have hrevives : Revives y.lits x.node (x.divAssign K y).node :=
      substituteTrue_rel halloc.addressed (substitutes_revives hK hden) hx.1.node
    exact ⟨hx.1.div hK hden halloc hy.1 h, hrevives.2 hx.1.sdnnf.structured⟩

end

/-- The integer is the number of models of the formula. -/
def CountsModels (v : Int) (a : Formula) : Prop :=
  Counts (fun _ _ => (1 : Int)) a.scope a.holds v

theorem countsModels_literal (ix : Nat) : CountsModels 1 (.literal ix) := by
  refine (Counts.literal (fun _ _ => (1 : Int)) (ix / 2) (decide (ix % 2 = 0))).congr fun τ => ?_
  rfl

theorem Formula.Cube.counts_one {a : Formula} (h : a.Cube) {v : Int} (hv : CountsModels v a) :
    v = 1 := by
  have hagrees := counts_agrees (fun _ _ => (1 : Int)) a.scope (setValue a.lits)
  rw [Finset.prod_const_one] at hagrees
  refine hv.unique (hagrees.congr fun τ => ?_)
  rw [h.holds τ, ← agrees_eq_literalsHold h.consistent, ← h.scope, Finset.inter_self]

/-- Dividing out literals that hold in all models leaves the number of models. -/
theorem countsModels_given {a b : Formula} (hcube : b.Cube) (hscope : b.scope ⊆ a.scope)
    (himplies : ∀ τ, a.holds τ = true → b.holds τ = true) {v : Int} (h : CountsModels v a) :
    CountsModels v (a.given b.lits) := by
  have hvars : b.lits.image (· / 2) ⊆ a.scope := hcube.scope ▸ hscope
  have hrest : Counts (fun _ _ => (1 : Int)) (a.given b.lits).scope (a.given b.lits).holds _ :=
    ⟨(a.given b.lits).dependsOn, rfl⟩
  have hall := Counts.given hvars (setValue b.lits) hrest
  have hsame : ∀ τ, (a.holds τ && agrees (b.lits.image (· / 2)) (setValue b.lits) τ) =
      a.holds τ := by
    intro τ
    have hagrees := agrees_eq_literalsHold hcube.consistent b.scope τ
    rw [← hcube.holds τ, hcube.scope, Finset.inter_self] at hagrees
    rw [hagrees]
    cases ha : a.holds τ with
    | false => rfl
    | true => rw [himplies τ ha]; rfl
  have hcount := (hall.congr hsame).unique h
  rw [Finset.prod_const_one, mul_one] at hcount
  exact hcount ▸ hrest

namespace Discipline

/-- Nothing that has a model is subtracted, and divisors are factors: products of literals that
hold in all models. -/
def exact : Discipline where
  subtracts y := ∀ τ, y.holds τ = false
  divides x y := y.Cube ∧ y.scope ⊆ x.scope ∧ ∀ τ, x.holds τ = true → y.holds τ = true

end Discipline

theorem count_carried (K : Klay) : Carries K .exact fun x a => CountsModels x.val a where
  bottom scope := Counts.bottom _ scope
  top := Counts.top _
  literal l := countsModels_literal (K.internalVal l)
  add {x y a b} hx hy h := by
    have hb : Counts (fun _ _ => (1 : Int)) a.scope b.holds y.val := by
      rw [h.scope]
      exact hy
    show Counts _ (a.scope ∪ b.scope) _ (x.val + y.val)
    rw [← h.scope, Finset.union_self]
    exact Counts.or h.exclusive hx hb
  mul hx hy h := Counts.and h hx hy
  sub {x y a b} hx hy h := by
    have hzero : y.val = 0 := hy.unique ((Counts.bottom _ b.scope).congr fun τ => (h τ).symm)
    have hval : (x.subAssign y).val = x.val := by
      rw [FCircuit.subAssign, hzero, Int.sub_zero]
    exact hval ▸ hx
  div {x y a b} hx hy _ h := by
    obtain ⟨hcube, hscope, himplies⟩ := h
    have hval : (x.divAssign K y).val = x.val := by
      rw [FCircuit.divAssign, hcube.counts_one hy, Int.tdiv_one]
    exact hval ▸ countsModels_given hcube hscope himplies hx

/-- A step of the counting field. Ganak sees `FCount` and `FCircuit` through one interface. -/
def countStep (s : Regs FCount) : FieldOp → Option (Regs FCount)
  | .ring op => step countImpl s op
  | .subAssign r a => (s r).bind fun x => (s a).map fun y => s.put r (x.subAssign y)
  | .divAssign r a => (s r).bind fun x => (s a).bind fun y =>
      if y.val = 0 then none else some (s.put r (x.divAssign y))

/-- One run of both fields, and what the registers stand for. -/
inductive Paired (K : Klay) : Regs FCircuit → Regs FCount → Regs Formula → Prop
  | empty : Paired K (fun _ => none) (fun _ => none) fun _ => none
  | step {s t : Regs FCircuit} {c d : Regs FCount} {F G : Regs Formula} {op : FieldOp} :
      Paired K s c F → Formula.Step K.internalVal F op G → Discipline.exact.Allows F op →
      fieldStep K s op = some t → countStep c op = some d → Paired K t d G

def SameVal (s : Regs FCircuit) (c : Regs FCount) : Prop :=
  RegsRel (fun x m => x.val = m.val) s c

section

variable {K : Klay} {alloc : Node → Prop}

/-- Both fields compute with the same integers. -/
theorem circuit_simulates_val : Simulates (circuitImpl K) countImpl fun x m => x.val = m.val := by
  apply Simulates.of_plain impl_plain FGenCount.impl_plain rfl rfl
  · intro l x hx
    obtain rfl := Option.some.inj hx
    exact ⟨_, rfl, rfl⟩
  · exact fun _ _ _ _ h h' => congrArg₂ (· + ·) h h'
  · exact fun _ _ _ _ h h' => congrArg₂ (· * ·) h h'

/-- Counting can make every step that compiling can. -/
theorem SameVal.step {s t : Regs FCircuit} {c : Regs FCount} (h : SameVal s c) {op : FieldOp}
    (hstep : fieldStep K s op = some t) : ∃ d, countStep c op = some d ∧ SameVal t d := by
  cases op with
  | ring op => exact circuit_simulates_val.step h hstep
  | subAssign r a =>
    have hsub : ∀ (x : FCircuit) (m : FCount) (x' : FCircuit) (m' : FCount), x.val = m.val →
        x'.val = m'.val → (x.subAssign x').val = (m.subAssign m').val :=
      fun _ _ _ _ hx hx' => congrArg₂ (· - ·) hx hx'
    exact h.binary hsub hstep
  | divAssign r a =>
    obtain ⟨x, y, hx, hy, ⟨-, hne⟩, rfl⟩ := divAssign_cases hstep
    obtain ⟨m, hm, hxm⟩ := h r x hx
    obtain ⟨p, hp, hyp⟩ := h a y hy
    have hp0 : p.val ≠ 0 := hyp ▸ hne y hy
    have hval : (x.divAssign K y).val = (m.divAssign p).val := congrArg₂ Int.tdiv hxm hyp
    refine ⟨c.put r (m.divAssign p), ?_, h.put r hval⟩
    show (c r).bind _ = _
    rw [hm, Option.bind_some, hp, Option.bind_some, if_neg hp0]

theorem Paired.sameVal {s : Regs FCircuit} {c : Regs FCount} {F : Regs Formula}
    (h : Paired K s c F) : SameVal s c := by
  induction h with
  | empty =>
    intro r x hx
    cases hx
  | step _ _ _ hstep hcount ih =>
    obtain ⟨d, hd, hsame⟩ := ih.step hstep
    rwa [Option.some.inj (hcount.symm.trans hd)]

theorem Paired.carries {rel : FCircuit → Formula → Prop} (hC : Carries K .exact rel)
    {s : Regs FCircuit} {c : Regs FCount} {F : Regs Formula} (h : Paired K s c F) :
    RegsRel rel s F := by
  induction h with
  | empty =>
    intro r x hx
    cases hx
  | step _ habs hallows hstep _ ih => exact hC.step ih habs hallows hstep

theorem Paired.countsModels {s : Regs FCircuit} {c : Regs FCount} {F : Regs Formula}
    (h : Paired K s c F) {r : Nat} {x : FCircuit} {m : FCount} {a : Formula} (hx : s r = some x)
    (hm : c r = some m) (ha : F r = some a) : CountsModels m.val a := by
  obtain ⟨m', hm', hval⟩ := h.sameVal r x hx
  obtain rfl : m = m' := Option.some.inj (hm.symm.trans hm')
  obtain ⟨a', ha', hcounts⟩ := h.carries (count_carried K) r x hx
  obtain rfl : a = a' := Option.some.inj (ha.symm.trans ha')
  exact hval ▸ hcounts

/-- The count that is computed is the value of the circuit with every literal weighted one. -/
theorem Means.count_eq {x : FCircuit} {a : Formula} (h : Means alloc x a) {m : FCount}
    (hm : CountsModels m.val a) : m.val = x.unitCount :=
  hm.unique (h.counts fun _ => (1 : Int))

theorem Means.isZero {x : FCircuit} {a : Formula} (h : Means alloc x a) (hlive : Live x.node)
    {m : FCount} (hm : CountsModels m.val a) : x.isZero = m.isZero := by
  cases hf : x.node.isFalse with
  | true =>
    have hnone : ∀ τ, a.holds τ = false := by
      intro τ
      rw [← h.denote]
      exact Node.read_false _ hf
    have hzero : m.val = 0 := hm.unique ((Counts.bottom _ a.scope).congr fun τ => (hnone τ).symm)
    simp [FCircuit.isZero, hf, FCount.isZero, hzero]
  | false =>
    obtain ⟨τ, hτ⟩ := hlive.model hf
    have hne : m.val ≠ 0 := by
      intro hzero
      have hnone := (count_one_eq_zero_iff a.dependsOn).mp (hm.count.trans hzero) τ
      rw [← h.denote, hτ] at hnone
      cases hnone
    simp [FCircuit.isZero, hf, FCount.isZero, hne]

theorem Means.isOne {x : FCircuit} {a : Formula} (h : Means alloc x a) {m : FCount}
    (hm : CountsModels m.val a) (hone : x.isOne = true) : m.isOne = true := by
  have hvalue : x.unitCount = 1 := Node.read_true _ hone
  rw [FCount.isOne, h.count_eq hm, hvalue]
  rfl

theorem Means.eq (halloc : K.Allocates alloc) {x y : FCircuit} {a b : Formula}
    (hx : Means alloc x a) (hy : Means alloc y b) {m p : FCount} (hm : CountsModels m.val a)
    (hp : CountsModels p.val b) (heq : x.eq y = true) :
    (∀ τ, a.holds τ = b.holds τ) ∧ m.eq p = true := by
  have hnode : x.node = y.node :=
    halloc.address _ _ hx.node hy.node (by simpa [FCircuit.eq] using heq)
  refine ⟨fun τ => ?_, ?_⟩
  · rw [← hx.denote, ← hy.denote, hnode]
  · rw [FCount.eq, hx.count_eq hm, hy.count_eq hp, FCircuit.unitCount, FCircuit.unitCount, hnode,
      beq_self_eq_true]

/-- What the solver learns from its tests when the two fields make the same run, of which the
formulas say what the values are: counting makes every step that compiling makes; both hold the
number of models; the zero test answers the same; a circuit that passes the test for one counts
one; values that are equal as circuits stand for one function, and are equal as counts. -/
theorem paired_tests (hK : K.Simplifies) (hden : K.Denotes) (halloc : K.Allocates alloc)
    {s : Regs FCircuit} {c : Regs FCount} {F : Regs Formula} (h : Paired K s c F) :
    (∀ op t, fieldStep K s op = some t → ∃ d, countStep c op = some d) ∧
      ∀ r q x y, s r = some x → s q = some y →
        ∃ m p a b, c r = some m ∧ c q = some p ∧ F r = some a ∧ F q = some b ∧
          x.val = m.val ∧ m.val = count (fun _ _ => 1) a.scope a.holds ∧
          x.isZero = m.isZero ∧ (x.isOne = true → m.isOne = true) ∧
          (x.eq y = true → (∀ τ, a.holds τ = b.holds τ) ∧ m.eq p = true) := by
  refine ⟨fun op t hstep => ?_, fun r q x y hx hy => ?_⟩
  · obtain ⟨d, hd, -⟩ := h.sameVal.step hstep
    exact ⟨d, hd⟩
  · obtain ⟨m, hm, hxm⟩ := h.sameVal r x hx
    obtain ⟨p, hp, hyp⟩ := h.sameVal q y hy
    obtain ⟨a, ha, hxa, hlive⟩ := h.carries (live_carried hK hden halloc .exact) r x hx
    obtain ⟨b, hb, hyb, -⟩ := h.carries (live_carried hK hden halloc .exact) q y hy
    have hma := h.countsModels hx hm ha
    have hpb := h.countsModels hy hp hb
    exact ⟨m, p, a, b, hm, hp, ha, hb, hxm, hma.count.symm, hxa.isZero hlive hma, hxa.isOne hma,
      hxa.eq halloc hyb hma hpb⟩

end

def twoRegs : Regs FCircuit :=
  (Regs.put (fun _ => none) 0 (FGenCircuit.litField Klay.reference (-1))).put 1
    (FGenCircuit.litField Klay.reference 2)

def twoCounts : Regs FCount := (Regs.put (fun _ => none) 0 ⟨1⟩).put 1 ⟨1⟩

def twoFormulas : Regs Formula := (Regs.put (fun _ => none) 0 (.literal 3)).put 1 (.literal 4)

theorem two_paired : Paired Klay.reference twoRegs twoCounts twoFormulas :=
  .step (.step .empty (.lit 0 (-1)) (Discipline.ring_allows _ _ _) rfl rfl) (.lit 1 2)
    (Discipline.ring_allows _ _ _) rfl rfl

def joinedRegs : Regs FCircuit :=
  twoRegs.put 0 ((FGenCircuit.litField Klay.reference (-1)).mulAssign Klay.reference
    (FGenCircuit.litField Klay.reference 2))

def joinedCounts : Regs FCount := twoCounts.put 0 ⟨1⟩

def joinedFormulas : Regs Formula := twoFormulas.put 0 ((Formula.literal 3).and (.literal 4))

theorem joined_paired : Paired Klay.reference joinedRegs joinedCounts joinedFormulas :=
  .step two_paired (.mulAssign (r := 0) (a := 1) rfl rfl (by decide))
    (Discipline.ring_allows _ _ _) rfl rfl

/-- The first of two literals was multiplied by the second, and is divided by it again. -/
def dividedRegs : Regs FCircuit :=
  joinedRegs.put 0 (((FGenCircuit.litField Klay.reference (-1)).mulAssign Klay.reference
    (FGenCircuit.litField Klay.reference 2)).divAssign Klay.reference
      (FGenCircuit.litField Klay.reference 2))

def dividedCounts : Regs FCount := joinedCounts.put 0 ⟨1⟩

def dividedFormulas : Regs Formula :=
  joinedFormulas.put 0 (((Formula.literal 3).and (.literal 4)).given {4})

theorem divided_paired : Paired Klay.reference dividedRegs dividedCounts dividedFormulas := by
  have hcube := Formula.cube_literal 4
  refine .step joined_paired (.divAssign (r := 0) (a := 1) (by decide) rfl rfl hcube.consistent)
    ?_ rfl rfl
  intro x y hx hy
  obtain rfl := Option.some.inj hx
  obtain rfl := Option.some.inj hy
  refine ⟨hcube, by decide, fun τ hτ => ?_⟩
  exact (Bool.and_eq_true_iff.mp hτ).2

/-- The literals count the same and are not equal. -/
theorem divided_tested :
    ((∀ op t, fieldStep Klay.reference dividedRegs op = some t →
      ∃ d, countStep dividedCounts op = some d) ∧
      ∀ r q x y, dividedRegs r = some x → dividedRegs q = some y →
        ∃ m p a b, dividedCounts r = some m ∧ dividedCounts q = some p ∧
          dividedFormulas r = some a ∧ dividedFormulas q = some b ∧
          x.val = m.val ∧ m.val = count (fun _ _ => 1) a.scope a.holds ∧
          x.isZero = m.isZero ∧ (x.isOne = true → m.isOne = true) ∧
          (x.eq y = true → (∀ τ, a.holds τ = b.holds τ) ∧ m.eq p = true)) ∧
    ∃ x y, dividedRegs 0 = some x ∧ dividedRegs 1 = some y ∧ x.eq y = false := by
  refine ⟨paired_tests Klay.reference_simplifies reference_complementary
    Klay.reference_allocates divided_paired, _, _, rfl, rfl, ?_⟩
  decide

end Kompyle
