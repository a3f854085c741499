import Kompyle.D4Operation

namespace Kompyle

open WeightedCount

namespace DataBranch

variable {U : Type*}

def ownVars (e : DataBranch U) : List Nat := e.unitLits.map Lit.var ++ e.freeVars

def scope (e : DataBranch U) (s : Finset Nat) : Finset Nat := e.ownVars.toFinset ∪ s

/-- Unit literals, free variables and the scope `s` of `d` share no variable. -/
def Partitions (e : DataBranch U) (s : Finset Nat) : Prop :=
  e.ownVars.Nodup ∧ ∀ v ∈ e.ownVars, v ∉ s

def unitsHold (σ : Nat → Bool) (e : DataBranch U) : Bool := e.unitLits.all (Lit.holds σ)

def Opposed (a b : DataBranch U) : Prop := ∃ l ∈ a.unitLits, l.neg ∈ b.unitLits

end DataBranch

/-- A run is bottom when klay's False absorbs all of it. -/
def bottomOperation : Operation Bool where
  createTop := false
  createBottom := true
  manageBottom := true
  manageTop _ := false
  manageBranch e := e.d
  manageDeterministOr es := es.all (·.d)
  manageDecomposableAnd ts := ts.any id

def satOperation (σ : Nat → Bool) : Operation Bool where
  createTop := true
  createBottom := false
  manageBottom := false
  manageTop _ := true
  manageBranch e := e.unitsHold σ && e.d
  manageDeterministOr es := es.any fun e => e.unitsHold σ && e.d
  manageDecomposableAnd ts := ts.all id

def CallTree.isBottom (t : CallTree) : Bool := t.run bottomOperation

def liveBranches (es : List (DataBranch CallTree)) : List (DataBranch CallTree) :=
  es.filter fun e => !e.d.isBottom

namespace CallTree

/-- The assignment satisfies the run: unit literals are true, `d` is satisfied and free
variables are arbitrary. -/
def sat (t : CallTree) (σ : Nat → Bool) : Bool := t.run (satOperation σ)

/-- `s` is a scope of the run. A bottom run and a bottom branch have every scope. -/
inductive HasScope : CallTree → Finset Nat → Prop
  | bottom {t s} (h : t.isBottom = true) : HasScope t s
  | createTop : HasScope .createTop ∅
  | manageTop {vs} (h : vs.Nodup) : HasScope (.manageTop vs) vs.toFinset
  | manageBranch {e s} (hp : e.Partitions s) (hd : HasScope e.d s) :
      HasScope (.manageBranch e) (e.scope s)
  | manageDeterministOr {es s} (sc : DataBranch CallTree → Finset Nat)
      (hp : ∀ e ∈ liveBranches es, e.Partitions (sc e) ∧ e.scope (sc e) = s)
      (hd : ∀ e ∈ liveBranches es, HasScope e.d (sc e)) : HasScope (.manageDeterministOr es) s
  | manageDecomposableAnd {ts} (sc : CallTree → Finset Nat)
      (hp : ts.Pairwise fun t u => Disjoint (sc t) (sc u)) (h : ∀ t ∈ ts, HasScope t (sc t)) :
      HasScope (.manageDecomposableAnd ts) (unions (ts.map sc))

/-- `T` holds of what is handed to every manageTop, `P` of every branch and `Q` of the
branches of every or, bottom parts aside. -/
inductive Live (T : List Nat → Prop) (P : DataBranch CallTree → Prop)
    (Q : List (DataBranch CallTree) → Prop) : CallTree → Prop
  | bottom {t} (h : t.isBottom = true) : Live T P Q t
  | createTop : Live T P Q .createTop
  | manageTop {vs} (h : T vs) : Live T P Q (.manageTop vs)
  | manageBranch {e} (hp : P e) (hd : Live T P Q e.d) : Live T P Q (.manageBranch e)
  | manageDeterministOr {es} (hq : Q (liveBranches es)) (hp : ∀ e ∈ liveBranches es, P e)
      (hd : ∀ e ∈ liveBranches es, Live T P Q e.d) : Live T P Q (.manageDeterministOr es)
  | manageDecomposableAnd {ts} (h : ∀ t ∈ ts, Live T P Q t) :
      Live T P Q (.manageDecomposableAnd ts)

def PlainTops (t : CallTree) : Prop := t.Live (· = []) (fun _ => True) fun _ => True

def EachBranch (P : DataBranch CallTree → Prop) (t : CallTree) : Prop :=
  t.Live (fun _ => True) P fun _ => True

def Deterministic (t : CallTree) : Prop :=
  t.Live (fun _ => True) (fun _ => True) fun es => es.Pairwise DataBranch.Opposed

@[simp] theorem runBranch_scope {U : Type*} (op : Operation U) (e : DataBranch CallTree)
    (s : Finset Nat) : (runBranch op e).scope s = e.scope s := by cases e; rfl

@[simp] theorem runBranch_partitions {U : Type*} (op : Operation U) (e : DataBranch CallTree)
    (s : Finset Nat) : (runBranch op e).Partitions s ↔ e.Partitions s := by cases e; rfl

@[simp] theorem isBottom_manageBranch (e : DataBranch CallTree) :
    (manageBranch e).isBottom = e.d.isBottom := by simp [isBottom, bottomOperation]

theorem isBottom_or {es : List (DataBranch CallTree)} :
    (manageDeterministOr es).isBottom = true ↔ liveBranches es = [] := by
  simp [isBottom, bottomOperation, liveBranches, List.filter_eq_nil_iff]

theorem mem_liveBranches {es : List (DataBranch CallTree)} {e : DataBranch CallTree} :
    e ∈ liveBranches es ↔ e ∈ es ∧ e.d.isBottom = false := by
  simp [liveBranches]

theorem isBottom_branch {es : List (DataBranch CallTree)}
    (h : (manageDeterministOr es).isBottom = true) {e : DataBranch CallTree} (he : e ∈ es) :
    e.d.isBottom = true := by
  by_contra hb
  have hlive : e ∈ liveBranches es := mem_liveBranches.mpr ⟨he, by simpa using hb⟩
  rw [isBottom_or.mp h] at hlive
  exact absurd hlive List.not_mem_nil

theorem liveBranches_cons (e : DataBranch CallTree) (es : List (DataBranch CallTree)) :
    liveBranches (e :: es) =
      if e.d.isBottom then liveBranches es else e :: liveBranches es := by
  cases hb : e.d.isBottom <;> simp [liveBranches, hb]

theorem isBottom_and {ts : List CallTree} :
    (manageDecomposableAnd ts).isBottom = true ↔ ∃ t ∈ ts, t.isBottom = true := by
  simp [isBottom, bottomOperation]

theorem isBottom_part {ts : List CallTree} (h : (manageDecomposableAnd ts).isBottom = false)
    {t : CallTree} (ht : t ∈ ts) : t.isBottom = false := by
  by_contra hb
  have hbottom := isBottom_and.mpr ⟨t, ht, by simpa using hb⟩
  rw [h] at hbottom
  cases hbottom

theorem sat_manageBranch (e : DataBranch CallTree) (σ : Nat → Bool) :
    (manageBranch e).sat σ = (e.unitsHold σ && e.d.sat σ) := by
  simp [sat, satOperation, DataBranch.unitsHold]

theorem sat_manageDecomposableAnd (ts : List CallTree) (σ : Nat → Bool) :
    (manageDecomposableAnd ts).sat σ = ts.all fun t => t.sat σ := by
  simp [sat, satOperation, List.all_map]

theorem sat_manageDeterministOr (es : List (DataBranch CallTree)) (σ : Nat → Bool) :
    (manageDeterministOr es).sat σ = es.any fun e => (manageBranch e).sat σ := by
  simp [sat, satOperation, DataBranch.unitsHold, List.any_map, Function.comp_def]

theorem sat_of_isBottom {t : CallTree} (h : t.isBottom = true) (σ : Nat → Bool) :
    t.sat σ = false := by
  induction t with
  | createTop => simp [isBottom, bottomOperation] at h
  | createBottom => rfl
  | manageBottom => rfl
  | manageTop vs => simp [isBottom, bottomOperation] at h
  | manageBranch e ih => simp [sat_manageBranch, ih (by simpa using h)]
  | manageDeterministOr es ih =>
    rw [sat_manageDeterministOr, List.any_eq_false]
    intro e he
    simp [sat_manageBranch, ih e he (isBottom_branch h he)]
  | manageDecomposableAnd ts ih =>
    obtain ⟨t, ht, hb⟩ := isBottom_and.mp h
    rw [sat_manageDecomposableAnd, List.all_eq_false]
    exact ⟨t, ht, by simp [ih t ht hb]⟩

theorem sat_or_live (es : List (DataBranch CallTree)) (σ : Nat → Bool) :
    (manageDeterministOr es).sat σ = (liveBranches es).any fun e => (manageBranch e).sat σ := by
  rw [sat_manageDeterministOr, Bool.eq_iff_iff, List.any_eq_true, List.any_eq_true]
  constructor
  · rintro ⟨e, he, hs⟩
    refine ⟨e, mem_liveBranches.mpr ⟨he, ?_⟩, hs⟩
    by_contra hb
    have := sat_of_isBottom (t := manageBranch e) (by simpa using hb) σ
    simp [this] at hs
  · rintro ⟨e, he, hs⟩
    exact ⟨e, (mem_liveBranches.mp he).1, hs⟩

section Live

variable {T : List Nat → Prop} {P : DataBranch CallTree → Prop}
  {Q : List (DataBranch CallTree) → Prop}

theorem live_top {vs : List Nat} (h : (manageTop vs).Live T P Q) : T vs := by
  cases h with
  | bottom h => simp [isBottom, bottomOperation] at h
  | manageTop h => exact h

theorem live_branch {e : DataBranch CallTree} (h : (manageBranch e).Live T P Q)
    (hb : e.d.isBottom = false) : P e ∧ e.d.Live T P Q := by
  cases h with
  | bottom h => simp [hb] at h
  | manageBranch hp hd => exact ⟨hp, hd⟩

theorem live_or {es : List (DataBranch CallTree)} (h : (manageDeterministOr es).Live T P Q)
    (hb : liveBranches es ≠ []) :
    Q (liveBranches es) ∧ ∀ e ∈ liveBranches es, P e ∧ e.d.Live T P Q := by
  cases h with
  | bottom h => exact absurd (isBottom_or.mp h) hb
  | manageDeterministOr hq hp hd => exact ⟨hq, fun e he => ⟨hp e he, hd e he⟩⟩

theorem live_and {ts : List CallTree} (h : (manageDecomposableAnd ts).Live T P Q)
    (hb : (manageDecomposableAnd ts).isBottom = false) : ∀ t ∈ ts, t.Live T P Q := by
  cases h with
  | bottom h => simp [hb] at h
  | manageDecomposableAnd h => exact h

theorem live_mono {T' : List Nat → Prop} {P' : DataBranch CallTree → Prop}
    {Q' : List (DataBranch CallTree) → Prop} (hT : ∀ vs, T vs → T' vs) (hP : ∀ e, P e → P' e)
    (hQ : ∀ es, Q es → Q' es) {t : CallTree} (h : t.Live T P Q) : t.Live T' P' Q' := by
  induction h with
  | bottom h => exact .bottom h
  | createTop => exact .createTop
  | manageTop h => exact .manageTop (hT _ h)
  | manageBranch hp _ ih => exact .manageBranch (hP _ hp) ih
  | manageDeterministOr hq hp _ ih =>
    exact .manageDeterministOr (hQ _ hq) (fun e he => hP e (hp e he)) ih
  | manageDecomposableAnd _ ih => exact .manageDecomposableAnd ih

end Live

/-- A run on the clause `x1 ∨ x2`, deciding `x1`. -/
def clauseRun : CallTree :=
  .manageDeterministOr [⟨.createTop, [⟨1, false⟩], [2]⟩, ⟨.createTop, [⟨1, true⟩, ⟨2, false⟩], []⟩]

theorem clauseRun_hasScope : clauseRun.HasScope {1, 2} := by
  refine .manageDeterministOr (fun _ => ∅) ?_ fun e he => ?_
  · unfold DataBranch.Partitions
    decide
  · rcases List.mem_pair.mp he with rfl | rfl <;> exact .createTop

theorem clauseRun_deterministic : clauseRun.Deterministic := by
  refine .manageDeterministOr ?_ (fun _ _ => trivial) fun e he => ?_
  · exact List.pairwise_pair.mpr ⟨⟨1, false⟩, by simp, by decide⟩
  · rcases List.mem_pair.mp he with rfl | rfl <;> exact .createTop

theorem clauseRun_plainTops : clauseRun.PlainTops := by
  refine .manageDeterministOr trivial (fun _ _ => trivial) fun e he => ?_
  rcases List.mem_pair.mp he with rfl | rfl <;> exact .createTop

end CallTree

end Kompyle
