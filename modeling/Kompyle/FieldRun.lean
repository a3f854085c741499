import Kompyle.FieldCircuit
import Kompyle.SubstituteStructure

namespace Kompyle

open SemiringProgram

namespace FCircuit

/-- `operator-=`. -/
def subAssign (x o : FCircuit) : FCircuit := ⟨x.node, x.val - o.val, x.lits⟩

/-- `operator/=` by another value, whose count is not zero; `fieldStep` divides by no other. -/
def divAssign (K : Klay) (x o : FCircuit) : FCircuit :=
  ⟨(substituteTrue K o.lits x.node []).1, x.val.tdiv o.val,
    x.lits.filter fun ix => ix ∉ o.lits ∧ ix ^^^ 1 ∉ o.lits⟩

/-- The sum-product value of the node with every literal weighted one. -/
def unitCount (x : FCircuit) : Int := x.node.value fun _ => (1 : Int)

end FCircuit

inductive FieldOp
  | ring (op : Op Int)
  | subAssign (r a : Nat)
  | divAssign (r a : Nat)
  deriving DecidableEq, Repr

section

variable (K : Klay)

/-- There is no step where the code has no result: it throws where a count is divided by zero, and
where a value is divided by itself it erases from the set it iterates over. -/
def fieldStep (s : Regs FCircuit) : FieldOp → Option (Regs FCircuit)
  | .ring op => step (FGenCircuit.impl K fun l => some (FGenCircuit.litField K l)) s op
  | .subAssign r a => (s r).bind fun x => (s a).map fun y => s.put r (x.subAssign y)
  | .divAssign r a => (s r).bind fun x => (s a).bind fun y =>
      if r = a ∨ y.val = 0 then none else some (s.put r (x.divAssign K y))

def EachStep (P : Regs FCircuit → FieldOp → Regs FCircuit → Prop) :
    List FieldOp → Regs FCircuit → Prop
  | [], _ => True
  | op :: ops, s => ∀ t, fieldStep K s op = some t → P s op t ∧ EachStep P ops t

def NoCommonModel (x y : FCircuit) : Prop :=
  ∀ σ τ, K.Evaluates (Node.boolean σ) (literalHolds τ) →
    ¬ (x.node.denote σ = true ∧ y.node.denote σ = true)

/-- For every register: the values added to it with only sums and subtractions on it since, and
the values multiplied into it, not divided out since, with only products and divisions since. -/
structure Ledger where
  added : Nat → List FCircuit
  multiplied : Nat → List FCircuit

namespace Ledger

def empty : Ledger := ⟨fun _ => [], fun _ => []⟩

def write (L : Ledger) (r : Nat) (added multiplied : List FCircuit) : Ledger :=
  ⟨Function.update L.added r added, Function.update L.multiplied r multiplied⟩

end Ledger

def overwritten : Op Int → Option Nat
  | .zero r | .one r | .lit r _ | .dup r _ | .assign r _ | .setZero r | .setOne r => some r
  | .add _ _ _ | .addAssign _ _ | .mulAssign _ _ => none

/-- When an operation may come next, and what it leaves in the ledger. -/
inductive Legal (s : Regs FCircuit) (L : Ledger) : FieldOp → Ledger → Prop
  | overwrite {op : Op Int} {r : Nat} : overwritten op = some r →
      Legal s L (.ring op) (L.write r [] [])
  | add {r a b : Nat} {x y : FCircuit} : s a = some x → s b = some y → NoCommonModel K x y →
      Legal s L (.ring (.add r a b)) (L.write r [x, y] [])
  | addAssign {r a : Nat} {x y : FCircuit} : s r = some x → s a = some y →
      NoCommonModel K x y →
      Legal s L (.ring (.addAssign r a)) (L.write r (y :: L.added r) [])
  | mulAssign {r a : Nat} {x y : FCircuit} : s r = some x → s a = some y →
      Disjoint x.node.vars y.node.vars →
      Legal s L (.ring (.mulAssign r a)) (L.write r [] (y :: L.multiplied r))
  | subAssign {r a : Nat} {y : FCircuit} : s a = some y → y ∈ L.added r →
      Legal s L (.subAssign r a) (L.write r (L.added r) [])
  | divAssign {r a : Nat} {l : Int} {before after : List FCircuit} : r ≠ a →
      s a = some (FGenCircuit.litField K l) →
      L.multiplied r = before ++ FGenCircuit.litField K l :: after →
      Legal s L (.divAssign r a) (L.write r [] (before ++ after))

inductive LegalRun : Regs FCircuit → Ledger → List FieldOp → Prop
  | nil {s : Regs FCircuit} {L : Ledger} : LegalRun s L []
  | cons {s t : Regs FCircuit} {L M : Ledger} {op : FieldOp} {ops : List FieldOp} :
      Legal K s L op M → fieldStep K s op = some t → LegalRun t M ops → LegalRun s L (op :: ops)

end

def CountsAgree (s : Regs FCircuit) : Prop := ∀ r x, s r = some x → x.val = x.unitCount

/-- A value is divided by another one, whose count is not zero. -/
def DividesDefined (s : Regs FCircuit) : FieldOp → Prop
  | .divAssign r a => r ≠ a ∧ ∀ y, s a = some y → y.val ≠ 0
  | _ => True

def SubtractsZero (s : Regs FCircuit) : FieldOp → Prop
  | .subAssign _ a => ∀ y, s a = some y → y.val = 0
  | _ => True

section

variable {K : Klay} {alloc : Node → Prop}

theorem divAssign_cases {s t : Regs FCircuit} {r a : Nat}
    (h : fieldStep K s (.divAssign r a) = some t) : ∃ x y, s r = some x ∧ s a = some y ∧
      DividesDefined s (.divAssign r a) ∧ t = s.put r (x.divAssign K y) := by
  obtain ⟨x, hx, h⟩ := Option.bind_eq_some_iff.mp h
  obtain ⟨y, hy, h⟩ := Option.bind_eq_some_iff.mp h
  split at h
  next => cases h
  next hdefined =>
    obtain ⟨hra, hy0⟩ := not_or.mp hdefined
    refine ⟨x, y, hx, hy, ⟨hra, fun z hz => ?_⟩, (Option.some.inj h).symm⟩
    rwa [← Option.some.inj (hy.symm.trans hz)]

theorem Klay.Allocates.add (hK : K.Allocates alloc) {x y : FCircuit} (hx : alloc x.node)
    (hy : alloc y.node) : alloc (x.add K y).node := by
  apply hK.orNode
  simp [hx, hy]

theorem Klay.Allocates.mulAssign (hK : K.Allocates alloc) {x y : FCircuit} (hx : alloc x.node)
    (hy : alloc y.node) : alloc (x.mulAssign K y).node := by
  apply hK.andNode
  simp [hx, hy]

theorem Klay.Allocates.divAssign (hK : K.Allocates alloc) {x : FCircuit} (hx : alloc x.node)
    (y : FCircuit) : alloc (x.divAssign K y).node :=
  substituteTrue_rel hK.addressed (substitutes_alloc hK) hx

/-- What the counts need of klay: nodes at their own addresses, and sums and products. -/
structure Klay.Counts (K : Klay) (alloc : Node → Prop) : Prop where
  allocates : K.Allocates alloc
  evaluates : ∀ w : Nat → Int, K.Evaluates (Node.sumProduct w) fun l => w (K.internalVal l)

/-- The literal of index `c` is a factor of the value, and its complement is not in it. -/
structure Entered (n : Node) (c : Nat) : Prop where
  factor : ∀ w : Nat → Int, w c = 0 → n.value w = 0
  complement : ∀ w w' : Nat → Int, (∀ ix, ix ≠ c ^^^ 1 → w ix = w' ix) → n.value w = n.value w'

/-- The literals among the values multiplied in are all factors, and of different index. -/
structure Pending (K : Klay) (n : Node) (ys : List FCircuit) : Prop where
  distinct : ys.Pairwise fun y z => ∀ l m, y = FGenCircuit.litField K l →
    z = FGenCircuit.litField K m → K.internalVal l ≠ K.internalVal m
  entered : ∀ l, FGenCircuit.litField K l ∈ ys → Entered n (K.internalVal l)

/-- The invariant of a register: a value that is not constantly zero still has all literals
multiplied into it. -/
structure Kept (K : Klay) (alloc : Node → Prop) (ys : List FCircuit) (x : FCircuit) : Prop where
  node : alloc x.node
  agree : x.val = x.unitCount
  pending : (∀ w : Nat → Int, x.node.value w = 0) ∨ Pending K x.node ys

theorem pending_nil (n : Node) : Pending K n [] := ⟨.nil, by simp⟩

theorem mem_leaves_of_entered {n : Node} {c : Nat} (h : Entered n c)
    (hn : ¬ ∀ w : Nat → Int, n.value w = 0) : c ∈ n.leaves := by
  by_contra hc
  apply hn
  intro w
  have hsame : n.value w = n.value (Function.update w c 0) := by
    apply Node.value_congr
    intro ix hix
    have hne : ix ≠ c := fun he => hc (he ▸ hix)
    rw [Function.update_of_ne hne]
  rw [hsame]
  exact h.factor _ (Function.update_self c 0 w)

theorem Entered.mul {n m p : Node} {c : Nat} (h : Entered n c) (hm : c ^^^ 1 ∉ m.leaves)
    (hp : ∀ w : Nat → Int, p.value w = n.value w * m.value w) : Entered p c := by
  refine ⟨fun w hw => ?_, fun w w' hw => ?_⟩
  · rw [hp, h.factor w hw, zero_mul]
  · have hsame : m.value w = m.value w' := by
      apply Node.value_congr
      intro ix hix
      exact hw ix fun he => hm (he ▸ hix)
    rw [hp, hp, h.complement w w' hw, hsame]

namespace Klay.Counts

variable (hK : K.Counts alloc)

include hK

theorem value_sum (w : Nat → Int) (n m : Node) :
    (K.orNode [n, m]).value w = n.value w + m.value w := by
  simp [value_or (hK.evaluates w)]

theorem value_product (w : Nat → Int) (n m : Node) :
    (K.andNode [n, m]).value w = n.value w * m.value w := by
  simp [value_and (hK.evaluates w)]

theorem value_leaf (w : Nat → Int) (l : Int) :
    (K.literalNode l).value w = w (K.internalVal l) := value_literal (hK.evaluates w) l

theorem entered_literal (l : Int) : Entered (K.literalNode l) (K.internalVal l) := by
  refine ⟨fun w hw => ?_, fun w w' hw => ?_⟩
  · rw [hK.value_leaf, hw]
  · rw [hK.value_leaf, hK.value_leaf]
    exact hw _ (xor_one_ne _).symm

theorem mem_leaves_literal (l : Int) : K.internalVal l ∈ (K.literalNode l).leaves := by
  apply mem_leaves_of_entered (hK.entered_literal l)
  intro hzero
  have hone := hzero fun _ => 1
  rw [hK.value_leaf] at hone
  exact absurd hone one_ne_zero

theorem value_divAssign {x : FCircuit} (hx : alloc x.node) (l : Int) :
    alloc (x.divAssign K (FGenCircuit.litField K l)).node ∧ ∀ w : Nat → Int,
      (x.divAssign K (FGenCircuit.litField K l)).node.value w = x.node.value fun ix =>
        if ix = K.internalVal l then 1 else if ix ^^^ 1 = K.internalVal l then 0 else w ix := by
  have hread : ∀ w : Nat → Int, alloc (substituteTrue K {K.internalVal l} x.node []).1 ∧
      (substituteTrue K {K.internalVal l} x.node []).1.read (Node.sumProduct w) =
        x.node.read ((Node.sumProduct w).substituted {K.internalVal l}) :=
    fun w => substituteTrue_read hK.allocates (hK.evaluates w) hx
  refine ⟨(hread fun _ => 0).1, fun w => ?_⟩
  have hvalue := (hread w).2
  simp only [Reading.substituted, Finset.mem_singleton] at hvalue
  exact hvalue

theorem kept_mul {ys zs : List FCircuit} {x y : FCircuit} (hx : Kept K alloc ys x)
    (hy : Kept K alloc zs y) (hdisj : Disjoint x.node.vars y.node.vars) :
    Kept K alloc (y :: ys) (x.mulAssign K y) := by
  have hvalue : ∀ w : Nat → Int,
      (x.mulAssign K y).node.value w = x.node.value w * y.node.value w :=
    fun w => hK.value_product w x.node y.node
  have hother : ∀ c ∈ x.node.leaves, ∀ d ∈ y.node.leaves, c / 2 ≠ d / 2 := by
    intro c hc d hd he
    have hcv : c / 2 ∈ x.node.vars := Finset.mem_image_of_mem _ hc
    have hdv : d / 2 ∈ y.node.vars := Finset.mem_image_of_mem _ hd
    exact Finset.disjoint_left.mp hdisj hcv (he ▸ hdv)
  refine ⟨hK.allocates.mulAssign hx.node hy.node, ?_, ?_⟩
  · show x.val * y.val = _
    rw [hx.agree, hy.agree]
    exact (hvalue _).symm
  · by_cases hzero : ∀ w : Nat → Int, x.node.value w = 0
    · left
      intro w
      rw [hvalue, hzero, zero_mul]
    · right
      have hp := hx.pending.resolve_left hzero
      have hmem : ∀ m, FGenCircuit.litField K m ∈ ys → K.internalVal m ∈ x.node.leaves :=
        fun m hm => mem_leaves_of_entered (hp.entered m hm) hzero
      constructor
      · refine List.pairwise_cons.mpr ⟨fun z hz l m hl hm he => ?_, hp.distinct⟩
        subst hl hm
        exact hother _ (hmem m hz) _ (hK.mem_leaves_literal l) (by rw [he])
      · intro l hl
        rcases List.mem_cons.mp hl with rfl | hl
        · have hn : K.internalVal l ^^^ 1 ∉ x.node.leaves := by
            intro hc
            exact hother _ hc _ (hK.mem_leaves_literal l) (xor_one_div _)
          apply (hK.entered_literal l).mul hn
          intro w
          rw [hvalue, mul_comm]
          rfl
        · have hn : K.internalVal l ^^^ 1 ∉ y.node.leaves := by
            intro hc
            exact hother _ (hmem l hl) _ hc (xor_one_div _).symm
          exact (hp.entered l hl).mul hn hvalue

theorem kept_div {before after : List FCircuit} {x : FCircuit} {l : Int}
    (hx : Kept K alloc (before ++ FGenCircuit.litField K l :: after) x) :
    Kept K alloc (before ++ after) (x.divAssign K (FGenCircuit.litField K l)) := by
  obtain ⟨halloc, hvalue⟩ := hK.value_divAssign hx.node l
  have hval : (x.divAssign K (FGenCircuit.litField K l)).val = x.val := Int.tdiv_one x.val
  rcases hx.pending with hzero | hp
  · refine ⟨halloc, ?_, Or.inl fun w => ?_⟩
    · rw [hval, hx.agree, FCircuit.unitCount, FCircuit.unitCount, hvalue, hzero, hzero]
    · rw [hvalue, hzero]
  · have hperm : (before ++ FGenCircuit.litField K l :: after).Perm
        (FGenCircuit.litField K l :: (before ++ after)) := List.perm_middle
    have hdistinct := hp.distinct
    rw [hperm.pairwise_iff fun h l m hl hm he => h m l hm hl he.symm] at hdistinct
    obtain ⟨hne, hrest⟩ := List.pairwise_cons.mp hdistinct
    have hentered := hp.entered l (hperm.mem_iff.mpr List.mem_cons_self)
    refine ⟨halloc, ?_, Or.inr ⟨hrest, fun m hm => ?_⟩⟩
    · rw [hval, hx.agree, FCircuit.unitCount, FCircuit.unitCount, hvalue]
      apply hentered.complement
      intro ix hix
      have hne' : ix ^^^ 1 ≠ K.internalVal l := by
        intro he
        apply hix
        rw [← he, Nat.xor_xor_cancel_right]
      simp [hne']
    · have hml := hne _ hm l m rfl rfl
      have hother := hp.entered m (hperm.mem_iff.mpr (List.mem_cons_of_mem _ hm))
      refine ⟨fun w hw => ?_, fun w w' hw => ?_⟩
      · rw [hvalue]
        apply hother.factor
        simp [hw, hml.symm]
      · rw [hvalue, hvalue]
        apply hother.complement
        intro ix hix
        simp only [hw ix hix]

theorem kept_zero : Kept K alloc [] (FGenCircuit.zero K) :=
  ⟨hK.allocates.falseNode, (value_falseNode (hK.evaluates _)).symm, Or.inr (pending_nil _)⟩

theorem kept_one : Kept K alloc [] (FGenCircuit.one K) :=
  ⟨hK.allocates.trueNode, (value_trueNode (hK.evaluates _)).symm, Or.inr (pending_nil _)⟩

theorem kept_literal (l : Int) : Kept K alloc [] (FGenCircuit.litField K l) :=
  ⟨hK.allocates.literalNode l, (hK.value_leaf (fun _ => 1) l).symm, Or.inr (pending_nil _)⟩

theorem kept_add {ys zs : List FCircuit} {x y : FCircuit} (hx : Kept K alloc ys x)
    (hy : Kept K alloc zs y) : Kept K alloc [] (x.add K y) := by
  refine ⟨hK.allocates.add hx.node hy.node, ?_, Or.inr (pending_nil _)⟩
  show x.val + y.val = _
  rw [hx.agree, hy.agree]
  exact (hK.value_sum _ x.node y.node).symm

end Klay.Counts

theorem Kept.forget {ys : List FCircuit} {x : FCircuit} (h : Kept K alloc ys x) :
    Kept K alloc [] x := ⟨h.node, h.agree, Or.inr (pending_nil _)⟩

theorem Kept.subAssign {ys : List FCircuit} {x y : FCircuit} (h : Kept K alloc ys x)
    (hy : y.val = 0) : Kept K alloc [] (x.subAssign y) := by
  refine ⟨h.node, ?_, Or.inr (pending_nil _)⟩
  show x.val - y.val = x.unitCount
  rw [hy, h.agree, Int.sub_zero]

def Sound (K : Klay) (alloc : Node → Prop) (s : Regs FCircuit) (L : Ledger) : Prop :=
  ∀ r x, s r = some x → Kept K alloc (L.multiplied r) x

theorem Sound.put {s : Regs FCircuit} {L : Ledger} (h : Sound K alloc s L) {r : Nat}
    {added ys : List FCircuit} {x : FCircuit} (hx : Kept K alloc ys x) :
    Sound K alloc (s.put r x) (L.write r added ys) := by
  intro i y hy
  by_cases hi : i = r
  · subst hi
    simp only [Regs.put, if_true, Option.some.injEq] at hy
    subst hy
    simpa [Ledger.write] using hx
  · simp only [Regs.put, hi, if_false] at hy
    simpa [Ledger.write, hi] using h i y hy

theorem Sound.overwrite (hK : K.Counts alloc) {s t : Regs FCircuit} {L : Ledger}
    (h : Sound K alloc s L) {op : Op Int} {r : Nat} (hr : overwritten op = some r)
    (hstep : fieldStep K s (.ring op) = some t) : Sound K alloc t (L.write r [] []) := by
  cases op with
  | zero =>
    cases hr
    cases hstep
    exact h.put hK.kept_zero
  | one =>
    cases hr
    cases hstep
    exact h.put hK.kept_one
  | lit _ l =>
    cases hr
    cases hstep
    exact h.put (hK.kept_literal l)
  | dup _ a =>
    cases hr
    obtain ⟨x, hx, rfl⟩ := Option.map_eq_some_iff.mp hstep
    exact h.put (h a x hx).forget
  | assign _ a =>
    cases hr
    obtain ⟨x, -, hstep⟩ := Option.bind_eq_some_iff.mp hstep
    obtain ⟨y, hy, rfl⟩ := Option.map_eq_some_iff.mp hstep
    exact h.put (h a y hy).forget
  | setZero =>
    cases hr
    obtain ⟨x, -, rfl⟩ := Option.map_eq_some_iff.mp hstep
    exact h.put hK.kept_zero
  | setOne =>
    cases hr
    obtain ⟨x, -, rfl⟩ := Option.map_eq_some_iff.mp hstep
    exact h.put hK.kept_one
  | add => cases hr
  | addAssign => cases hr
  | mulAssign => cases hr

theorem Sound.step (hK : K.Counts alloc) {s t : Regs FCircuit} {L M : Ledger} {op : FieldOp}
    (h : Sound K alloc s L) (hlegal : Legal K s L op M) (hstep : fieldStep K s op = some t)
    (hzero : SubtractsZero s op) : Sound K alloc t M := by
  cases hlegal with
  | overwrite hr => exact h.overwrite hK hr hstep
  | add hx hy _ =>
    simp only [fieldStep, SemiringProgram.step, hx, hy, Option.bind_some, Option.map_some,
      Option.some.injEq] at hstep
    subst hstep
    exact h.put (hK.kept_add (h _ _ hx) (h _ _ hy))
  | addAssign hx hy _ =>
    simp only [fieldStep, SemiringProgram.step, hx, hy, Option.bind_some, Option.map_some,
      Option.some.injEq] at hstep
    subst hstep
    exact h.put (hK.kept_add (h _ _ hx) (h _ _ hy))
  | mulAssign hx hy hdisj =>
    simp only [fieldStep, SemiringProgram.step, hx, hy, Option.bind_some, Option.map_some,
      Option.some.injEq] at hstep
    subst hstep
    exact h.put (hK.kept_mul (h _ _ hx) (h _ _ hy) hdisj)
  | subAssign hy _ =>
    obtain ⟨x, hx, hstep⟩ := Option.bind_eq_some_iff.mp hstep
    rw [hy, Option.map_some] at hstep
    obtain rfl := Option.some.inj hstep
    exact h.put ((h _ x hx).subAssign (hzero _ hy))
  | divAssign _ hy hfactor =>
    obtain ⟨x, z, hx, hz, -, rfl⟩ := divAssign_cases hstep
    obtain rfl := Option.some.inj (hy.symm.trans hz)
    have hkept := h _ x hx
    rw [hfactor] at hkept
    exact h.put (hK.kept_div hkept)

theorem Sound.countsAgree {s : Regs FCircuit} {L : Ledger} (h : Sound K alloc s L) :
    CountsAgree s := fun r x hx => (h r x hx).agree

theorem Sound.run (hK : K.Counts alloc) {s : Regs FCircuit} {L : Ledger} {ops : List FieldOp}
    (hrun : LegalRun K s L ops) (h : Sound K alloc s L)
    (hzero : EachStep K (fun s op _ => SubtractsZero s op) ops s) :
    EachStep K (fun _ _ t => CountsAgree t) ops s := by
  induction hrun with
  | nil => trivial
  | @cons s t L M op ops hlegal hstep _ ih =>
    intro t' ht'
    have heq : t = t' := Option.some.inj (hstep.symm.trans ht')
    subst heq
    obtain ⟨hz, hzs⟩ := hzero t hstep
    have ht := h.step hK hlegal hstep hz
    exact ⟨ht.countsAgree, ih ht hzs⟩

theorem subtractsZero_of_agree {s t : Regs FCircuit} {op : FieldOp} (hs : CountsAgree s)
    (hstep : fieldStep K s op = some t) (ht : CountsAgree t) : SubtractsZero s op := by
  cases op with
  | ring => trivial
  | divAssign => trivial
  | subAssign r a =>
    intro y hy
    obtain ⟨x, hx, hstep⟩ := Option.bind_eq_some_iff.mp hstep
    rw [hy, Option.map_some] at hstep
    obtain rfl := Option.some.inj hstep
    have hbefore := hs r x hx
    have hafter : x.val - y.val = x.unitCount := ht r (x.subAssign y) (if_pos rfl)
    omega

theorem eachStep_subtractsZero {s : Regs FCircuit} {ops : List FieldOp} (hs : CountsAgree s)
    (h : EachStep K (fun _ _ t => CountsAgree t) ops s) :
    EachStep K (fun s op _ => SubtractsZero s op) ops s := by
  induction ops generalizing s with
  | nil => trivial
  | cons op ops ih =>
    intro t ht
    obtain ⟨hagree, hrest⟩ := h t ht
    exact ⟨subtractsZero_of_agree hs ht hagree, ih hagree hrest⟩

/-- In a run of operations that are used as they are meant to be, the count and the circuit stay
together exactly as long as nothing but zeros is subtracted. -/
theorem countsAgree_iff (hK : K.Counts alloc) {ops : List FieldOp}
    (hrun : LegalRun K (fun _ => none) .empty ops) :
    EachStep K (fun _ _ t => CountsAgree t) ops (fun _ => none) ↔
      EachStep K (fun s op _ => SubtractsZero s op) ops (fun _ => none) := by
  constructor
  · apply eachStep_subtractsZero
    intro r x hx
    cases hx
  · apply Sound.run hK hrun
    intro r x hx
    cases hx

end

theorem noCommonModel_zero (K : Klay) (x : FCircuit) :
    NoCommonModel K x (FGenCircuit.zero K) := by
  intro σ τ hK ⟨_, hfalse⟩
  have hden : (FGenCircuit.zero K).node.denote σ = false := denote_falseNode hK
  rw [hden] at hfalse
  cases hfalse

/-- Two literals are multiplied in, the first is divided out again, and zero is added and
subtracted. -/
def trailOps : List FieldOp :=
  [.ring (.one 0), .ring (.lit 1 1), .ring (.lit 2 (-2)), .ring (.mulAssign 0 1),
    .ring (.mulAssign 0 2), .divAssign 0 1, .ring (.zero 3), .ring (.addAssign 0 3),
    .subAssign 0 3]

theorem reference_counts : Klay.reference.Counts Klay.Made :=
  ⟨Klay.reference_allocates, fun w => Klay.reference_evaluates (sumProduct_absorbs w)⟩

theorem trailOps_legal : LegalRun Klay.reference (fun _ => none) .empty trailOps := by
  refine .cons (.overwrite rfl) rfl ?_
  refine .cons (.overwrite rfl) rfl ?_
  refine .cons (.overwrite rfl) rfl ?_
  refine .cons (.mulAssign rfl rfl (by decide)) rfl ?_
  refine .cons (.mulAssign rfl rfl (by decide)) rfl ?_
  refine .cons (.divAssign (by decide) rfl (show _ = [_] ++ _ :: [] from rfl)) rfl ?_
  refine .cons (.overwrite rfl) rfl ?_
  refine .cons (.addAssign rfl rfl (noCommonModel_zero _ _)) rfl ?_
  refine .cons (.subAssign rfl (by simp [Ledger.write])) rfl ?_
  exact .nil

theorem trailOps_countsAgree :
    EachStep Klay.reference (fun _ _ t => CountsAgree t) trailOps (fun _ => none) := by
  refine (countsAgree_iff reference_counts trailOps_legal).mpr ?_
  refine fun _ h₁ => ⟨trivial, fun _ h₂ => ⟨trivial, fun _ h₃ => ⟨trivial, fun _ h₄ => ⟨trivial,
    fun _ h₅ => ⟨trivial, fun _ h₆ => ⟨trivial, fun _ h₇ => ⟨trivial, fun _ h₈ => ⟨trivial,
    fun _ h₉ => ⟨fun y hy => ?_, trivial⟩⟩⟩⟩⟩⟩⟩⟩⟩
  cases h₁; cases h₂; cases h₃; cases h₄; cases h₅; cases h₆; cases h₇; cases h₈
  cases hy
  rfl

def driftOps : List FieldOp :=
  [.ring (.zero 0), .ring (.lit 1 1), .ring (.addAssign 0 1), .subAssign 0 1]

/-- The count is zero again, and the circuit is still the literal. -/
theorem driftOps_drifts : LegalRun Klay.reference (fun _ => none) .empty driftOps ∧
    ¬ EachStep Klay.reference (fun _ _ t => CountsAgree t) driftOps (fun _ => none) := by
  constructor
  · refine .cons (.overwrite rfl) rfl ?_
    refine .cons (.overwrite rfl) rfl ?_
    refine .cons (.addAssign rfl rfl ?_) rfl ?_
    · intro σ τ hK ⟨hfalse, _⟩
      exact noCommonModel_zero _ _ σ τ hK ⟨hfalse, hfalse⟩
    · exact .cons (.subAssign rfl (by simp [Ledger.write])) rfl .nil
  · intro h
    obtain ⟨-, h⟩ := h _ rfl
    obtain ⟨-, h⟩ := h _ rfl
    obtain ⟨-, h⟩ := h _ rfl
    obtain ⟨h, -⟩ := h _ rfl
    have hagree := h 0 _ rfl
    exact absurd hagree (by decide)

end Kompyle
