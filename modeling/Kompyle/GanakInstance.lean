import Kompyle.WeightedCount
import Mathlib.Order.Interval.Finset.Nat
import Mathlib.Order.Lattice.Nat

namespace Kompyle

open WeightedCount

/-- CMSat::Lit: variables from 0, and the sign says that the literal is negative. -/
structure CmsLit where
  var : Nat
  sign : Bool
  deriving DecidableEq, Repr

/-- GanakInt::Lit: variables from 1, and the sign says that the literal is positive. -/
structure GanakLit where
  var : Nat
  sign : Bool
  deriving DecidableEq, Repr

def CmsLit.holds (σ : Nat → Bool) (l : CmsLit) : Bool := σ l.var == !l.sign

def GanakLit.holds (σ : Nat → Bool) (l : GanakLit) : Bool := σ l.var == l.sign

/-- What the program reads of ArjunNS::SimplifiedCNF. The weights are those of the positive and
of the negative literal. -/
structure SimplifiedCNF (F : Type*) where
  nVars : Nat
  clauses : List (List CmsLit)
  redClauses : List (List CmsLit)
  samplVarsSet : Bool
  samplVars : List Nat
  optSamplVars : List Nat
  weights : Nat → Option (F × F)
  multiplierWeight : F

/-- What is handed to a Ganak counter; the literal weights are the calls of set_lit_weight. -/
structure GanakInstance (F : Type*) where
  newVars : Nat
  indepSupport : Finset Nat
  optionalIndepSupport : Finset Nat
  irredClauses : List (List GanakLit)
  redClauses : List (List GanakLit)
  litWeights : List (GanakLit × F)

/-- The members of a std::set, in its order. -/
def inOrder (s : Finset Nat) : List Nat := (List.range (s.sup id + 1)).filter (· ∈ s)

theorem mem_inOrder {v : Nat} {s : Finset Nat} : v ∈ inOrder s ↔ v ∈ s := by
  simp only [inOrder, List.mem_filter, List.mem_range, decide_eq_true_eq, and_iff_right_iff_imp]
  intro hv
  have hle : v ≤ s.sup id := Finset.le_sup (f := id) hv
  omega

theorem nodup_inOrder (s : Finset Nat) : (inOrder s).Nodup := List.nodup_range.filter _

def cmsToGanakCl (cl : List CmsLit) : List GanakLit := cl.map fun l => ⟨l.var + 1, !l.sign⟩

namespace GanakInstance

variable {F : Type*}

/-- The weight of a literal, if one was set; a later call overrides an earlier one. -/
def weight? (inst : GanakInstance F) (l : GanakLit) : Option F := inst.litWeights.reverse.lookup l

def sat (inst : GanakInstance F) (σ : Nat → Bool) : Bool :=
  (inst.irredClauses ++ inst.redClauses).all fun cl => cl.any (GanakLit.holds σ)

def vars (inst : GanakInstance F) : Finset Nat := Finset.Icc 1 inst.newVars

theorem weight?_eq_none {inst : GanakInstance F} {l : GanakLit}
    (h : ∀ x, (l, x) ∉ inst.litWeights) : inst.weight? l = none := by
  rw [weight?, List.lookup_eq_none_iff]
  intro p hp
  by_contra hn
  have hl : l = p.1 := by simpa using hn
  subst hl
  exact h p.2 (List.mem_reverse.mp hp)

theorem mem_of_weight? {inst : GanakInstance F} {l : GanakLit} {x : F}
    (h : inst.weight? l = some x) : (l, x) ∈ inst.litWeights := by
  obtain ⟨before, after, heq, -⟩ := List.lookup_eq_some_iff.mp h
  have hmem : (l, x) ∈ inst.litWeights.reverse := by
    rw [heq]
    exact List.mem_append_right _ List.mem_cons_self
  exact List.mem_reverse.mp hmem

theorem weight?_eq_some {inst : GanakInstance F} {l : GanakLit} {x : F}
    (hx : (l, x) ∈ inst.litWeights) (huniq : ∀ y, (l, y) ∈ inst.litWeights → y = x) :
    inst.weight? l = some x := by
  cases hw : inst.weight? l with
  | some y => rw [huniq y (mem_of_weight? hw)]
  | none =>
    rw [weight?, List.lookup_eq_none_iff] at hw
    have hne := hw (l, x) (List.mem_reverse.mpr hx)
    simp at hne

end GanakInstance

end Kompyle
