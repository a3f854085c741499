import Mathlib.Algebra.Ring.Defs
import Mathlib.Data.Option.Basic

/-!
Straight-line programs over registers that hold values with zero, one, sums, products and
labelled constants, and what two implementations of these operations have in common.
-/

namespace SemiringProgram

/-- The operations, where those that update a register may be implemented apart from those that
return a new value. -/
structure Impl (L F : Type*) where
  zero : F
  one : F
  lit : L → Option F
  dup : F → F
  add : F → F → F
  addAssign : F → F → F
  mulAssign : F → F → F
  assign : F → F → F
  setZero : F → F
  setOne : F → F

/-- The first register of an operation is the one it writes. -/
inductive Op (L : Type*)
  | zero (r : Nat)
  | one (r : Nat)
  | lit (r : Nat) (l : L)
  | dup (r a : Nat)
  | add (r a b : Nat)
  | addAssign (r a : Nat)
  | mulAssign (r a : Nat)
  | assign (r a : Nat)
  | setZero (r : Nat)
  | setOne (r : Nat)
  deriving DecidableEq, Repr

abbrev Regs (F : Type*) := Nat → Option F

def Regs.put {F : Type*} (s : Regs F) (r : Nat) (x : F) : Regs F :=
  fun i => if i = r then some x else s i

variable {L F G : Type*}

def step (I : Impl L F) (s : Regs F) : Op L → Option (Regs F)
  | .zero r => some (s.put r I.zero)
  | .one r => some (s.put r I.one)
  | .lit r l => (I.lit l).map (s.put r)
  | .dup r a => (s a).map fun x => s.put r (I.dup x)
  | .add r a b => (s a).bind fun x => (s b).map fun y => s.put r (I.add x y)
  | .addAssign r a => (s r).bind fun x => (s a).map fun y => s.put r (I.addAssign x y)
  | .mulAssign r a => (s r).bind fun x => (s a).map fun y => s.put r (I.mulAssign x y)
  | .assign r a => (s r).bind fun x => (s a).map fun y => s.put r (I.assign x y)
  | .setZero r => (s r).map fun x => s.put r (I.setZero x)
  | .setOne r => (s r).map fun x => s.put r (I.setOne x)

def run (I : Impl L F) (prog : List (Op L)) (s : Regs F) : Option (Regs F) :=
  prog.foldlM (step I) s

def eval (I : Impl L F) (prog : List (Op L)) (out : Nat) : Option F :=
  (run I prog fun _ => none).bind fun s => s out

def semiring {R : Type*} [CommSemiring R] (ω : L → R) : Impl L R where
  zero := 0
  one := 1
  lit l := some (ω l)
  dup x := x
  add x y := x + y
  addAssign x y := x + y
  mulAssign x y := x * y
  assign _ y := y
  setZero _ := 0
  setOne _ := 1

/-- Every operation of `I` keeps the relation to the same operation of `J`. -/
structure Simulates (I : Impl L F) (J : Impl L G) (rel : F → G → Prop) : Prop where
  zero : rel I.zero J.zero
  one : rel I.one J.one
  lit : ∀ l x, I.lit l = some x → ∃ y, J.lit l = some y ∧ rel x y
  dup : ∀ x y, rel x y → rel (I.dup x) (J.dup y)
  add : ∀ x y x' y', rel x y → rel x' y' → rel (I.add x x') (J.add y y')
  addAssign : ∀ x y x' y', rel x y → rel x' y' → rel (I.addAssign x x') (J.addAssign y y')
  mulAssign : ∀ x y x' y', rel x y → rel x' y' → rel (I.mulAssign x x') (J.mulAssign y y')
  assign : ∀ x y x' y', rel x y → rel x' y' → rel (I.assign x x') (J.assign y y')
  setZero : ∀ x y, rel x y → rel (I.setZero x) (J.setZero y)
  setOne : ∀ x y, rel x y → rel (I.setOne x) (J.setOne y)

/-- Copies, and the operations that update a register, do nothing that the others cannot do. -/
structure Impl.Plain (I : Impl L F) : Prop where
  dup : ∀ x, I.dup x = x
  addAssign : ∀ x y, I.addAssign x y = I.add x y
  assign : ∀ x y, I.assign x y = y
  setZero : ∀ x, I.setZero x = I.zero
  setOne : ∀ x, I.setOne x = I.one

theorem semiring_plain {R : Type*} [CommSemiring R] (ω : L → R) : (semiring ω).Plain :=
  ⟨fun _ => rfl, fun _ _ => rfl, fun _ _ => rfl, fun _ => rfl, fun _ => rfl⟩

/-- Whatever the first machine has in a register, the second has a related value there. -/
def RegsRel (rel : F → G → Prop) (s : Regs F) (t : Regs G) : Prop :=
  ∀ r x, s r = some x → ∃ y, t r = some y ∧ rel x y

theorem RegsRel.put {rel : F → G → Prop} {s : Regs F} {t : Regs G} (h : RegsRel rel s t)
    (r : Nat) {x : F} {y : G} (hxy : rel x y) : RegsRel rel (s.put r x) (t.put r y) := by
  intro i z hz
  by_cases hi : i = r
  · simp only [Regs.put, hi, if_true, Option.some.injEq] at hz ⊢
    exact ⟨y, rfl, hz ▸ hxy⟩
  · simp only [Regs.put, hi, if_false] at hz ⊢
    exact h i z hz

section

variable {I : Impl L F} {J : Impl L G} {rel : F → G → Prop}

/-- Between plain implementations constants, sums and products are all there is to relate. -/
theorem Simulates.of_plain (hI : I.Plain) (hJ : J.Plain) (zero : rel I.zero J.zero)
    (one : rel I.one J.one)
    (lit : ∀ l x, I.lit l = some x → ∃ y, J.lit l = some y ∧ rel x y)
    (add : ∀ x y x' y', rel x y → rel x' y' → rel (I.add x x') (J.add y y'))
    (mul : ∀ x y x' y', rel x y → rel x' y' → rel (I.mulAssign x x') (J.mulAssign y y')) :
    Simulates I J rel where
  zero := zero
  one := one
  lit := lit
  dup x y h := by rwa [hI.dup, hJ.dup]
  add := add
  addAssign x y x' y' h h' := by
    rw [hI.addAssign, hJ.addAssign]
    exact add x y x' y' h h'
  mulAssign := mul
  assign x y x' y' _ h' := by rwa [hI.assign, hJ.assign]
  setZero x y _ := by rwa [hI.setZero, hJ.setZero]
  setOne x y _ := by rwa [hI.setOne, hJ.setOne]

theorem RegsRel.unary {s s' : Regs F} {t : Regs G} (h : RegsRel rel s t) {f : F → F} {g : G → G}
    (hfg : ∀ x y, rel x y → rel (f x) (g y)) {r a : Nat}
    (hs : (s a).map (fun x => s.put r (f x)) = some s') :
    ∃ t', (t a).map (fun y => t.put r (g y)) = some t' ∧ RegsRel rel s' t' := by
  obtain ⟨x, hx, rfl⟩ := Option.map_eq_some_iff.mp hs
  obtain ⟨y, hy, hxy⟩ := h a x hx
  exact ⟨t.put r (g y), by rw [hy]; rfl, h.put r (hfg x y hxy)⟩

theorem RegsRel.binary {s s' : Regs F} {t : Regs G} (h : RegsRel rel s t) {f : F → F → F}
    {g : G → G → G} (hfg : ∀ x y x' y', rel x y → rel x' y' → rel (f x x') (g y y')) {r a b : Nat}
    (hs : ((s a).bind fun x => (s b).map fun x' => s.put r (f x x')) = some s') :
    ∃ t', ((t a).bind fun y => (t b).map fun y' => t.put r (g y y')) = some t' ∧
      RegsRel rel s' t' := by
  obtain ⟨x, hx, hs⟩ := Option.bind_eq_some_iff.mp hs
  obtain ⟨x', hx', rfl⟩ := Option.map_eq_some_iff.mp hs
  obtain ⟨y, hy, hxy⟩ := h a x hx
  obtain ⟨y', hy', hxy'⟩ := h b x' hx'
  exact ⟨t.put r (g y y'), by rw [hy, hy']; rfl, h.put r (hfg x y x' y' hxy hxy')⟩

theorem Simulates.step (h : Simulates I J rel) {s s' : Regs F} {t : Regs G}
    (hst : RegsRel rel s t) {op : Op L} (hs : SemiringProgram.step I s op = some s') :
    ∃ t', SemiringProgram.step J t op = some t' ∧ RegsRel rel s' t' := by
  cases op with
  | zero r =>
    obtain rfl := Option.some.inj hs
    exact ⟨_, rfl, hst.put r h.zero⟩
  | one r =>
    obtain rfl := Option.some.inj hs
    exact ⟨_, rfl, hst.put r h.one⟩
  | lit r l =>
    obtain ⟨x, hx, rfl⟩ := Option.map_eq_some_iff.mp hs
    obtain ⟨y, hy, hxy⟩ := h.lit l x hx
    exact ⟨t.put r y, by show (J.lit l).map _ = _; rw [hy]; rfl, hst.put r hxy⟩
  | dup r a => exact hst.unary h.dup hs
  | add r a b => exact hst.binary h.add hs
  | addAssign r a => exact hst.binary h.addAssign hs
  | mulAssign r a => exact hst.binary h.mulAssign hs
  | assign r a => exact hst.binary h.assign hs
  | setZero r => exact hst.unary h.setZero hs
  | setOne r => exact hst.unary h.setOne hs

theorem Simulates.run (h : Simulates I J rel) (prog : List (Op L)) {s s' : Regs F} {t : Regs G}
    (hst : RegsRel rel s t) (hs : SemiringProgram.run I prog s = some s') :
    ∃ t', SemiringProgram.run J prog t = some t' ∧ RegsRel rel s' t' := by
  induction prog generalizing s t with
  | nil =>
    obtain rfl := Option.some.inj hs
    exact ⟨t, rfl, hst⟩
  | cons op prog ih =>
    obtain ⟨s₁, hs₁, hrun⟩ := Option.bind_eq_some_iff.mp hs
    obtain ⟨t₁, ht₁, hst₁⟩ := h.step hst hs₁
    obtain ⟨t', ht', hst'⟩ := ih hst₁ hrun
    exact ⟨t', Option.bind_eq_some_iff.mpr ⟨t₁, ht₁, ht'⟩, hst'⟩

/-- The implementation whose values tell nothing: what it simulates is an invariant. -/
def forget : Impl L Unit where
  zero := ()
  one := ()
  lit _ := some ()
  dup _ := ()
  add _ _ := ()
  addAssign _ _ := ()
  mulAssign _ _ := ()
  assign _ _ := ()
  setZero _ := ()
  setOne _ := ()

theorem forget_plain : (forget : Impl L Unit).Plain :=
  ⟨fun _ => rfl, fun _ _ => rfl, fun _ _ => rfl, fun _ => rfl, fun _ => rfl⟩

def AllRegs (P : F → Prop) (s : Regs F) : Prop := ∀ r x, s r = some x → P x

theorem allRegs_empty {P : F → Prop} : AllRegs P fun _ => none := by
  intro r x hx
  cases hx

theorem AllRegs.put {P : F → Prop} {s : Regs F} (h : AllRegs P s) (r : Nat) {x : F} (hx : P x) :
    AllRegs P (s.put r x) := by
  intro i y hy
  by_cases hi : i = r
  · simp only [Regs.put, hi, if_true, Option.some.injEq] at hy
    exact hy ▸ hx
  · simp only [Regs.put, hi, if_false] at hy
    exact h i y hy

theorem Simulates.step_allRegs {P : F → Prop} (h : Simulates I forget fun x (_ : Unit) => P x)
    {s s' : Regs F} {op : Op L} (hs : AllRegs P s)
    (hstep : SemiringProgram.step I s op = some s') : AllRegs P s' := by
  have hst : RegsRel (fun x (_ : Unit) => P x) s fun _ => some () :=
    fun r x hx => ⟨(), rfl, hs r x hx⟩
  obtain ⟨t, -, ht⟩ := h.step hst hstep
  intro r x hx
  obtain ⟨_, -, hP⟩ := ht r x hx
  exact hP

theorem Simulates.flip (h : Simulates I J rel)
    (hlit : ∀ l y, J.lit l = some y → ∃ x, I.lit l = some x ∧ rel x y) :
    Simulates J I fun y x => rel x y where
  zero := h.zero
  one := h.one
  lit := hlit
  dup y x := h.dup x y
  add y x y' x' := h.add x y x' y'
  addAssign y x y' x' := h.addAssign x y x' y'
  mulAssign y x y' x' := h.mulAssign x y x' y'
  assign y x y' x' := h.assign x y x' y'
  setZero y x := h.setZero x y
  setOne y x := h.setOne x y

theorem optionRel_mono {rel' : F → G → Prop} (h : ∀ x y, rel x y → rel' x y) {o : Option F}
    {p : Option G} (hop : Option.Rel rel o p) : Option.Rel rel' o p := by
  cases hop with
  | some hxy => exact .some (h _ _ hxy)
  | none => exact .none

theorem RegsRel.optionRel {s : Regs F} {t : Regs G} (h : RegsRel rel s t)
    (h' : RegsRel (fun y x => rel x y) t s) (r : Nat) : Option.Rel rel (s r) (t r) := by
  cases hs : s r with
  | some x =>
    obtain ⟨y, hy, hxy⟩ := h r x hs
    rw [hy]
    exact .some hxy
  | none =>
    cases ht : t r with
    | none => exact .none
    | some y =>
      obtain ⟨x, hx, -⟩ := h' r y ht
      rw [hs] at hx
      cases hx

/-- Two machines that simulate each other run the same programs, and end with related values in
the same registers. -/
theorem Simulates.run_optionRel (h : Simulates I J rel)
    (h' : Simulates J I fun y x => rel x y) (prog : List (Op L)) {s : Regs F} {t : Regs G}
    (hst : RegsRel rel s t) (hts : RegsRel (fun y x => rel x y) t s) :
    Option.Rel (fun s' t' => ∀ r, Option.Rel rel (s' r) (t' r))
      (SemiringProgram.run I prog s) (SemiringProgram.run J prog t) := by
  cases hs : SemiringProgram.run I prog s with
  | some s' =>
    obtain ⟨t', ht, hst'⟩ := h.run prog hst hs
    obtain ⟨s'', hs'', hts'⟩ := h'.run prog hts ht
    obtain rfl : s' = s'' := Option.some.inj (hs.symm.trans hs'')
    rw [ht]
    exact .some (hst'.optionRel hts')
  | none =>
    cases ht : SemiringProgram.run J prog t with
    | none => exact .none
    | some t' =>
      obtain ⟨s', hs', -⟩ := h'.run prog hts ht
      rw [hs] at hs'
      cases hs'

theorem Simulates.eval (h : Simulates I J rel) {prog : List (Op L)} {out : Nat} {x : F}
    (hx : SemiringProgram.eval I prog out = some x) :
    ∃ y, SemiringProgram.eval J prog out = some y ∧ rel x y := by
  obtain ⟨s, hs, hx⟩ := Option.bind_eq_some_iff.mp hx
  obtain ⟨t, ht, hst⟩ := h.run prog (by intro r x hr; cases hr) hs
  obtain ⟨y, hy, hxy⟩ := hst out x hx
  exact ⟨y, Option.bind_eq_some_iff.mpr ⟨t, ht, hy⟩, hxy⟩

end

/-- What holds of the constants and is kept by sums and products holds of what a program computes. -/
theorem eval_keeps {I : Impl L F} (hI : I.Plain) {P : F → Prop} (zero : P I.zero) (one : P I.one)
    (lit : ∀ l x, I.lit l = some x → P x) (add : ∀ x y, P x → P y → P (I.add x y))
    (mul : ∀ x y, P x → P y → P (I.mulAssign x y)) {prog : List (Op L)} {out : Nat} {x : F}
    (hx : eval I prog out = some x) : P x := by
  have hsim : Simulates I I fun x _ => P x :=
    .of_plain hI hI zero one (fun l x hl => ⟨x, hl, lit l x hl⟩)
      (fun x _ x' _ hP hP' => add x x' hP hP') fun x _ x' _ hP hP' => mul x x' hP hP'
  obtain ⟨_, _, hP⟩ := hsim.eval hx
  exact hP

/-- The same operations with other constants. -/
def Impl.withLit (I : Impl L F) (lit : L → Option F) : Impl L F := { I with lit := lit }

theorem Impl.Plain.withLit {I : Impl L F} (h : I.Plain) (lit : L → Option F) :
    (I.withLit lit).Plain :=
  ⟨h.dup, h.addAssign, h.assign, h.setZero, h.setOne⟩

section

variable {R : Type*} [CommSemiring R]

/-- A reading of the values in a semiring that respects the operations. -/
structure Impl.Interprets (I : Impl L F) (ω : F → R) : Prop where
  zero : ω I.zero = 0
  one : ω I.one = 1
  add : ∀ x y, ω (I.add x y) = ω x + ω y
  mul : ∀ x y, ω (I.mulAssign x y) = ω x * ω y

theorem Impl.Interprets.simulates {I : Impl L F} {ω : F → R} (h : I.Interprets ω) (hI : I.Plain)
    (lit : L → F) :
    Simulates (I.withLit fun l => some (lit l)) (semiring fun l => ω (lit l))
      fun x m => ω x = m := by
  apply Simulates.of_plain (hI.withLit _) (semiring_plain _) h.zero h.one
  · intro l x hx
    obtain rfl := Option.some.inj hx
    exact ⟨ω (lit l), rfl, rfl⟩
  · intro x m x' m' hx hx'
    rw [← hx, ← hx']
    exact h.add x x'
  · intro x m x' m' hx hx'
    rw [← hx, ← hx']
    exact h.mul x x'

end

/-- One product, in register 1, from constants that pass through register 2. -/
def monomial (ls : List L) : List (Op L) := .one 1 :: ls.flatMap fun l => [.lit 2 l, .mulAssign 1 2]

/-- The sum of the products, in register 0. -/
def polynomial (ts : List (List L)) : List (Op L) :=
  .zero 0 :: ts.flatMap fun ls => monomial ls ++ [.addAssign 0 1]

theorem run_append (I : Impl L F) (p q : List (Op L)) (s : Regs F) :
    run I (p ++ q) s = (run I p s).bind (run I q) := List.foldlM_append

theorem Regs.put_self (s : Regs F) (r : Nat) (x : F) : s.put r x r = some x := if_pos rfl

theorem Regs.put_of_ne (s : Regs F) {r i : Nat} (x : F) (h : i ≠ r) : s.put r x i = s i := if_neg h

section

variable {R : Type*} [CommSemiring R] {ω : L → R}

theorem run_monomial (ls : List L) (s : Regs R) :
    ∃ t, run (semiring ω) (monomial ls) s = some t ∧ t 0 = s 0 ∧
      t 1 = some (ls.map ω).prod := by
  have hloop : ∀ (ls : List L) (s : Regs R) (q : R), s 1 = some q →
      ∃ t, run (semiring ω) (ls.flatMap fun l => [.lit 2 l, .mulAssign 1 2]) s = some t ∧
        t 0 = s 0 ∧ t 1 = some (q * (ls.map ω).prod) := by
    intro ls
    induction ls with
    | nil => exact fun s q hq => ⟨s, rfl, rfl, by simpa using hq⟩
    | cons l ls ih =>
      intro s q hq
      have hstep : run (semiring ω) [.lit 2 l, .mulAssign 1 2] s =
          some ((s.put 2 (ω l)).put 1 (q * ω l)) := by
        simp [run, step, semiring, Regs.put, hq]
      obtain ⟨t, ht, h0, h1⟩ := ih ((s.put 2 (ω l)).put 1 (q * ω l)) (q * ω l) rfl
      refine ⟨t, ?_, h0, ?_⟩
      · rw [List.flatMap_cons, run_append, hstep]
        exact ht
      · rw [h1, List.map_cons, List.prod_cons, mul_assoc]
  obtain ⟨t, ht, h0, h1⟩ := hloop ls (s.put 1 1) 1 rfl
  exact ⟨t, ht, h0, by rw [h1, one_mul]⟩

theorem eval_polynomial (ts : List (List L)) :
    eval (semiring ω) (polynomial ts) 0 = some (ts.map fun ls => (ls.map ω).prod).sum := by
  have hloop : ∀ (ts : List (List L)) (s : Regs R) (q : R), s 0 = some q →
      ∃ t, run (semiring ω) (ts.flatMap fun ls => monomial ls ++ [.addAssign 0 1]) s = some t ∧
        t 0 = some (q + (ts.map fun ls => (ls.map ω).prod).sum) := by
    intro ts
    induction ts with
    | nil => exact fun s q hq => ⟨s, rfl, by simpa using hq⟩
    | cons ls ts ih =>
      intro s q hq
      obtain ⟨t, ht, h0, h1⟩ := run_monomial (ω := ω) ls s
      have hstep : run (semiring ω) (monomial ls ++ [.addAssign 0 1]) s =
          some (t.put 0 (q + (ls.map ω).prod)) := by
        rw [run_append, ht]
        simp [run, step, semiring, h0, h1, hq]
      obtain ⟨t', ht', h0'⟩ := ih (t.put 0 (q + (ls.map ω).prod)) (q + (ls.map ω).prod) rfl
      refine ⟨t', ?_, ?_⟩
      · rw [List.flatMap_cons, run_append, hstep]
        exact ht'
      · rw [h0', List.map_cons, List.sum_cons, add_assoc]
  obtain ⟨t, ht, h0⟩ := hloop ts (Regs.put (fun _ => none) 0 0) 0 rfl
  have hrun : run (semiring ω) (polynomial ts) (fun _ => none) = some t := ht
  rw [eval, hrun, Option.bind_some, h0, zero_add]

end

/-- Where every constant has a value, a program that runs on one machine runs on the other. -/
theorem eval_isSome {I : Impl L F} {J : Impl L G} (hlit : ∀ l, (I.lit l).isSome)
    {prog : List (Op L)} {out : Nat} {y : G} (h : eval J prog out = some y) :
    ∃ x, eval I prog out = some x := by
  have hlit' : ∀ l y, J.lit l = some y → ∃ x, I.lit l = some x ∧ True := by
    intro l _ _
    obtain ⟨x, hx⟩ := Option.isSome_iff_exists.mp (hlit l)
    exact ⟨x, hx, trivial⟩
  have hsim : Simulates J I fun _ _ => True :=
    { zero := trivial, one := trivial, lit := hlit'
      dup := fun _ _ _ => trivial
      add := fun _ _ _ _ _ _ => trivial
      addAssign := fun _ _ _ _ _ _ => trivial
      mulAssign := fun _ _ _ _ _ _ => trivial
      assign := fun _ _ _ _ _ _ => trivial
      setZero := fun _ _ _ => trivial
      setOne := fun _ _ _ => trivial }
  obtain ⟨x, hx, -⟩ := hsim.eval h
  exact ⟨x, hx⟩

end SemiringProgram
