import Kompyle.WeightedCount

namespace Kompyle

open WeightedCount

structure Lit where
  var : Nat
  sign : Bool
  deriving DecidableEq, Repr

namespace Lit

def makeLitTrue (v : Nat) : Lit := ⟨v, false⟩

def neg (l : Lit) : Lit := ⟨l.var, !l.sign⟩

def holds (σ : Nat → Bool) (l : Lit) : Bool := σ l.var == !l.sign

end Lit

structure DataBranch (U : Type*) where
  d : U
  unitLits : List Lit
  freeVars : List Nat

/-- The callbacks of d4::Operation through which a run reports what it finds. -/
structure Operation (U : Type*) where
  createTop : U
  createBottom : U
  manageBottom : U
  manageTop : List Nat → U
  manageBranch : DataBranch U → U
  manageDeterministOr : List (DataBranch U) → U
  manageDecomposableAnd : List U → U

/-- The callbacks of one d4 run, as a tree: the result of a call is an argument of the call
above it. -/
inductive CallTree
  | createTop
  | createBottom
  | manageBottom
  | manageTop (freeVars : List Nat)
  | manageBranch (e : DataBranch CallTree)
  | manageDeterministOr (elts : List (DataBranch CallTree))
  | manageDecomposableAnd (elts : List CallTree)

namespace CallTree

@[induction_eliminator]
theorem induction {P : CallTree → Prop}
    (createTop : P .createTop) (createBottom : P .createBottom)
    (manageBottom : P .manageBottom) (manageTop : ∀ vs, P (.manageTop vs))
    (manageBranch : ∀ e, P e.d → P (.manageBranch e))
    (manageDeterministOr : ∀ es, (∀ e ∈ es, P e.d) → P (.manageDeterministOr es))
    (manageDecomposableAnd : ∀ ts, (∀ t ∈ ts, P t) → P (.manageDecomposableAnd ts))
    (t : CallTree) : P t := by
  refine @CallTree.rec P (fun e => P e.d) (fun es => ∀ e ∈ es, P e.d) (fun ts => ∀ t ∈ ts, P t)
    createTop createBottom manageBottom manageTop manageBranch manageDeterministOr
    manageDecomposableAnd ?_ ?_ ?_ ?_ ?_ t
  · exact fun _ _ _ h => h
  · simp
  · intro e es he hes x hx
    rcases List.mem_cons.mp hx with rfl | hx
    · exact he
    · exact hes x hx
  · simp
  · intro c cs hc hcs x hx
    rcases List.mem_cons.mp hx with rfl | hx
    · exact hc
    · exact hcs x hx

variable {U : Type*}

mutual

def run (op : Operation U) : CallTree → U
  | createTop => op.createTop
  | createBottom => op.createBottom
  | manageBottom => op.manageBottom
  | manageTop vs => op.manageTop vs
  | manageBranch e => op.manageBranch (runBranch op e)
  | manageDeterministOr es => op.manageDeterministOr (runBranches op es)
  | manageDecomposableAnd ts => op.manageDecomposableAnd (runAll op ts)

def runBranch (op : Operation U) : DataBranch CallTree → DataBranch U
  | ⟨d, unitLits, freeVars⟩ => ⟨d.run op, unitLits, freeVars⟩

def runBranches (op : Operation U) : List (DataBranch CallTree) → List (DataBranch U)
  | [] => []
  | e :: es => runBranch op e :: runBranches op es

def runAll (op : Operation U) : List CallTree → List U
  | [] => []
  | t :: ts => t.run op :: runAll op ts

end

theorem runBranches_eq_map (op : Operation U) (es : List (DataBranch CallTree)) :
    runBranches op es = es.map (runBranch op) := by
  induction es with
  | nil => rfl
  | cons e es ih => simp [runBranches, ih]

theorem runAll_eq_map (op : Operation U) (ts : List CallTree) :
    runAll op ts = ts.map (run op) := by
  induction ts with
  | nil => rfl
  | cons t ts ih => simp [runAll, ih]

@[simp] theorem run_createTop (op : Operation U) : createTop.run op = op.createTop := rfl

@[simp] theorem run_createBottom (op : Operation U) :
    createBottom.run op = op.createBottom := rfl

@[simp] theorem run_manageBottom (op : Operation U) :
    manageBottom.run op = op.manageBottom := rfl

@[simp] theorem run_manageTop (op : Operation U) (vs : List Nat) :
    (manageTop vs).run op = op.manageTop vs := rfl

@[simp] theorem run_manageBranch (op : Operation U) (e : DataBranch CallTree) :
    (manageBranch e).run op = op.manageBranch (runBranch op e) := rfl

@[simp] theorem run_manageDeterministOr (op : Operation U) (es : List (DataBranch CallTree)) :
    (manageDeterministOr es).run op = op.manageDeterministOr (es.map (runBranch op)) := by
  rw [run, runBranches_eq_map]

@[simp] theorem run_manageDecomposableAnd (op : Operation U) (ts : List CallTree) :
    (manageDecomposableAnd ts).run op = op.manageDecomposableAnd (ts.map (run op)) := by
  rw [run, runAll_eq_map]

@[simp] theorem runBranch_d (op : Operation U) (e : DataBranch CallTree) :
    (runBranch op e).d = e.d.run op := by cases e; rfl

@[simp] theorem runBranch_unitLits (op : Operation U) (e : DataBranch CallTree) :
    (runBranch op e).unitLits = e.unitLits := by cases e; rfl

@[simp] theorem runBranch_freeVars (op : Operation U) (e : DataBranch CallTree) :
    (runBranch op e).freeVars = e.freeVars := by cases e; rfl

end CallTree

end Kompyle
