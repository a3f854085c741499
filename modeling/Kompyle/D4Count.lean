import Kompyle.CompileGanak
import Kompyle.CountingOperation
import Kompyle.CountRules

namespace Kompyle

open WeightedCount

inductive D4PreprocMethod
  | kEquiv
  | kBackbone
  | kVivi
  | kOccElim
  | kComb
  | kBasic
  deriving DecidableEq, Repr

inductive D4Solver
  | kGlucose
  | kMinisat
  deriving DecidableEq, Repr

structure D4Options where
  preprocMethod : D4PreprocMethod := .kEquiv
  preprocNbIter : Int := 5
  preprocTimeout : Int := 60
  freqDecay : Int := 2048
  solver : D4Solver := .kGlucose
  cacheFirstPage : Nat := 1 <<< 32
  cacheExtraPage : Nat := 1 <<< 29

/-- `d4` runs on a file, with its preprocessing, and reports to the operation. -/
def countFromCnfUsingD4v2 (d4 : D4Options → String → CallTree) (cnfFile : String)
    (opts : D4Options) : Int := (d4 opts cnfFile).run countingOperation

def compileFromCnfUsingD4v2 (K : Klay) (d4 : D4Options → String → CallTree) (cnfFile : String)
    (opts : D4Options) : Node := (d4 opts cnfFile).run (klayCircuitOperation K [])

namespace CallTree

/-- What is relied on in d4: its run is over all variables of the CNF, decides the branches of
every or against each other, and is satisfied by what satisfies the CNF. -/
structure RunsOn (t : CallTree) (n : Nat) (dimacs : List (List Int)) : Prop where
  scope : t.HasScope (Finset.Icc 1 n)
  deterministic : t.Deterministic
  sat : ∀ τ, t.sat τ = cnfHolds τ dimacs

theorem modelCount_of_isBottom {t : CallTree} (h : t.isBottom = true) : t.modelCount = 0 := by
  induction t with
  | createTop => simp [isBottom, bottomOperation] at h
  | createBottom => rfl
  | manageBottom => rfl
  | manageTop vs => simp [isBottom, bottomOperation] at h
  | manageBranch e ih =>
    rw [modelCount_manageBranch, ih (by simpa using h), zero_mul]
  | manageDeterministOr es ih =>
    rw [modelCount_or]
    refine List.sum_eq_zero fun x hx => ?_
    obtain ⟨e, he, rfl⟩ := List.mem_map.mp hx
    rw [modelCount_manageBranch, ih e he (isBottom_branch h he), zero_mul]
  | manageDecomposableAnd ts ih =>
    obtain ⟨t, ht, hb⟩ := isBottom_and.mp h
    rw [modelCount_and]
    exact List.prod_eq_zero (List.mem_map.mpr ⟨t, ht, ih t ht hb⟩)

theorem modelCount_or_live (es : List (DataBranch CallTree)) :
    (manageDeterministOr es).modelCount =
      ((liveBranches es).map fun e => (manageBranch e).modelCount).sum := by
  rw [modelCount_or]
  induction es with
  | nil => rfl
  | cons e es ih =>
    rw [List.map_cons, List.sum_cons, ih, liveBranches_cons]
    cases hb : e.d.isBottom with
    | false => simp
    | true =>
      have hzero : (manageBranch e).modelCount = 0 := modelCount_of_isBottom (by simpa using hb)
      simp [hzero]

theorem counts_of_isBottom {t : CallTree} (h : t.isBottom = true) (s : Finset Nat) :
    Counts (fun _ _ => (1 : Int)) s t.sat t.modelCount := by
  rw [modelCount_of_isBottom h]
  exact (Counts.bottom _ s).congr fun σ => (sat_of_isBottom h σ).symm

theorem counts_free {vs : List Nat} (h : vs.Nodup) :
    Counts (fun _ _ => (1 : Int)) vs.toFinset (fun _ => true) (2 ^ vs.length) := by
  have hfree := Counts.free (fun _ _ => (1 : Int)) vs.toFinset
  rwa [Finset.prod_const, List.toFinset_card_of_nodup h, one_add_one_eq_two] at hfree

theorem counts_branch {e : DataBranch CallTree} {s : Finset Nat} (hp : e.Partitions s)
    (hd : Counts (fun _ _ => (1 : Int)) s e.d.sat e.d.modelCount) :
    Counts (fun _ _ => (1 : Int)) (e.scope s) (manageBranch e).sat
      (manageBranch e).modelCount := by
  obtain ⟨hnodup, hout⟩ := hp
  obtain ⟨hnu, hnf, huf⟩ := List.nodup_append.mp hnodup
  have hcube := Counts.cube (fun _ _ => (1 : Int)) (e.unitLits.map fun l => (l.var, !l.sign))
    (by simpa [Function.comp_def] using hnu)
  simp only [List.map_map, Function.comp_def] at hcube
  have hdisj : Disjoint (e.unitLits.map Lit.var).toFinset e.freeVars.toFinset :=
    Finset.disjoint_left.mpr fun v hv hf =>
      huf v (List.mem_toFinset.mp hv) v (List.mem_toFinset.mp hf) rfl
  have hdisj' : Disjoint ((e.unitLits.map Lit.var).toFinset ∪ e.freeVars.toFinset) s := by
    rw [← List.toFinset_append]
    exact Finset.disjoint_left.mpr fun v hv hs => hout v (List.mem_toFinset.mp hv) hs
  have hand := (hcube.and hdisj (counts_free hnf)).and hdisj' hd
  have hscope : e.scope s =
      (e.unitLits.map Lit.var).toFinset ∪ e.freeVars.toFinset ∪ s := by
    rw [DataBranch.scope, DataBranch.ownVars, List.toFinset_append]
  have hcount : (manageBranch e).modelCount =
      (e.unitLits.map fun _ => (1 : Int)).prod * 2 ^ e.freeVars.length * e.d.modelCount := by
    rw [modelCount_manageBranch, List.map_const', List.prod_replicate, one_pow, one_mul, mul_comm]
  rw [hscope, hcount]
  refine hand.congr fun σ => ?_
  rw [sat_manageBranch, DataBranch.unitsHold_eq_all, Bool.and_true]

/-- The count of a run over a scope is the number of assignments of the scope that satisfy it:
also where variables are handed to manageTop. -/
theorem counts_modelCount {t : CallTree} {s : Finset Nat} (hs : t.HasScope s)
    (hdet : t.Deterministic) : Counts (fun _ _ => (1 : Int)) s t.sat t.modelCount := by
  induction hs with
  | bottom h => exact counts_of_isBottom h _
  | createTop => exact Counts.top _
  | @manageTop vs h =>
    have hcount : (manageTop vs).modelCount = 2 ^ vs.length := CountingOperation.pow2_eq _
    rw [hcount]
    exact counts_free h
  | @manageBranch e s hp hd ih =>
    cases hb : e.d.isBottom with
    | true => exact counts_of_isBottom (by simpa using hb) _
    | false => exact counts_branch hp (ih (live_branch hdet hb).2)
  | @manageDeterministOr es s sc hp hd ih =>
    by_cases hne : liveBranches es = []
    · exact counts_of_isBottom (isBottom_or.mpr hne) _
    · obtain ⟨hopp, hlive⟩ := live_or hdet hne
      have hexcl : (liveBranches es).Pairwise fun a b => ∀ σ,
          (manageBranch a).sat σ = true → (manageBranch b).sat σ = false :=
        hopp.imp fun h σ => sat_opposed h σ
      have hbranch : ∀ e ∈ liveBranches es, Counts (fun _ _ => (1 : Int)) s
          (manageBranch e).sat (manageBranch e).modelCount := by
        intro e he
        obtain ⟨hpart, hscope⟩ := hp e he
        rw [← hscope]
        exact counts_branch hpart (ih e he (hlive e he).2)
      rw [modelCount_or_live]
      exact (Counts.any hexcl hbranch).congr fun σ => (sat_or_live es σ).symm
  | @manageDecomposableAnd ts sc hp h ih =>
    cases hb : (manageDecomposableAnd ts).isBottom with
    | true => exact counts_of_isBottom hb _
    | false =>
      have hall := Counts.all hp fun t ht => ih t ht (live_and hdet hb t ht)
      rw [modelCount_and]
      exact hall.congr fun σ => (sat_manageDecomposableAnd ts σ).symm

end CallTree

/-- Whatever the options, the count is the number of models of the CNF over its variables. -/
theorem countFromCnfUsingD4v2_card {d4 : D4Options → String → CallTree} {cnfFile : String}
    {n : Nat} {dimacs : List (List Int)} (opts : D4Options)
    (h : (d4 opts cnfFile).RunsOn n dimacs) :
    countFromCnfUsingD4v2 d4 cnfFile opts =
      ((Finset.Icc 1 n).powerset.filter fun A => cnfHolds (indicator A) dimacs).card := by
  have hcount := (CallTree.counts_modelCount h.scope h.deterministic).count
  rw [count_one, funext h.sat] at hcount
  exact hcount.symm

namespace CallTree

/-- A run on the clause `x1 ∨ x2` over three variables: below `x1` the other two are handed to
manageTop, below its negation the third is free. -/
def topRun : CallTree :=
  .manageDeterministOr [⟨.manageTop [2, 3], [⟨1, false⟩], []⟩,
    ⟨.createTop, [⟨1, true⟩, ⟨2, false⟩], [3]⟩]

theorem topRun_runsOn : topRun.RunsOn 3 [[1, 2]] where
  scope := by
    refine .manageDeterministOr (fun e => if e.freeVars = [] then {2, 3} else ∅) ?_ fun e he => ?_
    · unfold DataBranch.Partitions
      decide
    · rcases List.mem_pair.mp he with rfl | rfl
      · exact .manageTop (by decide)
      · exact .createTop
  deterministic := by
    refine .manageDeterministOr ?_ (fun _ _ => trivial) fun e he => ?_
    · exact List.pairwise_pair.mpr ⟨⟨1, false⟩, by simp, by decide⟩
    · rcases List.mem_pair.mp he with rfl | rfl
      · exact .manageTop trivial
      · exact .createTop
  sat τ := by
    have hsat : topRun.sat τ = (τ 1 || (!τ 1 && τ 2)) := by
      simp [topRun, sat, satOperation, DataBranch.unitsHold, Lit.holds]
    have hcnf : cnfHolds τ [[1, 2]] = (τ 1 || τ 2) := by
      simp [cnfHolds, literalHolds]
    rw [hsat, hcnf]
    cases τ 1 with
    | true => rfl
    | false => rfl

end CallTree

theorem topRun_counted :
    countFromCnfUsingD4v2 (fun _ _ => CallTree.topRun) "or.cnf" {} =
      ((Finset.Icc 1 3).powerset.filter fun A => cnfHolds (indicator A) [[1, 2]]).card ∧
    countFromCnfUsingD4v2 (fun _ _ => CallTree.topRun) "or.cnf" {} = 6 :=
  ⟨countFromCnfUsingD4v2_card {} CallTree.topRun_runsOn, by decide⟩

end Kompyle
