import Kompyle.GateElimination

/-!
A d4 with the behaviour that is relied on: it goes through all assignments of the variables that
occur in the problem.
-/

namespace Kompyle

/-- The cubes over the variables. -/
def cubes : List Nat → List (List Lit)
  | [] => [[]]
  | v :: vs => (cubes vs).flatMap fun ls => [⟨v, false⟩ :: ls, ⟨v, true⟩ :: ls]

/-- The assignment that the cube stands for. -/
def cubeValue (ls : List Lit) (v : Nat) : Bool := decide ((⟨v, false⟩ : Lit) ∈ ls)

def Prepared.occurs (p : Prepared) (v : Nat) : Bool := p.problem.lits.any fun l => l.var = v

def Prepared.occurring (p : Prepared) : List Nat :=
  (List.range' 1 p.circuit.nbVars).filter p.occurs

def Prepared.unused (p : Prepared) : List Nat :=
  (List.range' 1 p.circuit.nbVars).filter fun v => !p.occurs v

def Prepared.branch (p : Prepared) (ls : List Lit) : DataBranch CallTree :=
  ⟨.createTop, ls, p.unused⟩

/-- One branch for each cube that solves the problem. -/
def Prepared.branches (p : Prepared) : List (DataBranch CallTree) :=
  ((cubes p.occurring).filter fun ls => p.problem.sat (cubeValue ls)).map p.branch

def Prepared.reference (p : Prepared) : CallTree := .manageDeterministOr p.branches

theorem map_var_of_mem_cubes {vs : List Nat} {ls : List Lit} (h : ls ∈ cubes vs) :
    ls.map Lit.var = vs := by
  induction vs generalizing ls with
  | nil =>
    obtain rfl := List.mem_singleton.mp h
    rfl
  | cons v vs ih =>
    obtain ⟨rest, hrest, hls⟩ := List.mem_flatMap.mp h
    rcases List.mem_pair.mp hls with rfl | rfl <;> rw [List.map_cons, ih hrest]

/-- The cube that an assignment satisfies. -/
theorem mem_cubes (σ : Nat → Bool) (vs : List Nat) :
    vs.map (fun v => (⟨v, !σ v⟩ : Lit)) ∈ cubes vs := by
  induction vs with
  | nil => exact List.mem_singleton_self _
  | cons v vs ih =>
    refine List.mem_flatMap.mpr ⟨_, ih, ?_⟩
    cases σ v <;> simp

theorem cubes_opposed (vs : List Nat) :
    (cubes vs).Pairwise fun a b => ∃ l ∈ a, l.neg ∈ b := by
  induction vs with
  | nil => exact List.pairwise_singleton _ _
  | cons v vs ih =>
    refine List.pairwise_flatMap.mpr ⟨fun ls _ => ?_, ih.imp ?_⟩
    · exact List.pairwise_pair.mpr ⟨⟨v, false⟩, List.mem_cons_self, List.mem_cons_self⟩
    · rintro a b ⟨l, hl, hneg⟩ x hx y hy
      refine ⟨l, ?_, ?_⟩
      · rcases List.mem_pair.mp hx with rfl | rfl <;> exact List.mem_cons_of_mem _ hl
      · rcases List.mem_pair.mp hy with rfl | rfl <;> exact List.mem_cons_of_mem _ hneg

theorem cubeValue_eq {vs : List Nat} {ls : List Lit} (h : ls ∈ cubes vs) {σ : Nat → Bool}
    (hσ : ls.all (Lit.holds σ) = true) {v : Nat} (hv : v ∈ vs) : cubeValue ls v = σ v := by
  rw [List.all_eq_true] at hσ
  rw [← map_var_of_mem_cubes h] at hv
  obtain ⟨l, hl, rfl⟩ := List.mem_map.mp hv
  have hholds : σ l.var = !l.sign := by simpa [Lit.holds] using hσ l hl
  cases hs : l.sign with
  | false =>
    have hmem : (⟨l.var, false⟩ : Lit) ∈ ls := by
      rw [← hs]
      exact hl
    rw [hholds, hs]
    exact decide_eq_true hmem
  | true =>
    have hnot : (⟨l.var, false⟩ : Lit) ∉ ls := by
      intro hmem
      have htrue : σ l.var = true := by simpa [Lit.holds] using hσ _ hmem
      rw [hholds, hs] at htrue
      cases htrue
    rw [hholds, hs]
    exact decide_eq_false hnot

theorem ProblemManagerCircuit.sat_congr {pm : ProblemManagerCircuit} {σ τ : Nat → Bool}
    (h : ∀ l ∈ pm.lits, σ l.var = τ l.var) : pm.sat σ = pm.sat τ := by
  have hlit : ∀ l ∈ pm.lits, l.holds σ = l.holds τ := by
    intro l hl
    rw [Lit.holds, Lit.holds, h l hl]
  have hgate : ∀ g ∈ pm.gates, BcGate.holds σ g = BcGate.holds τ g := by
    intro g hg
    have hlits : ∀ l ∈ g.output :: g.input, l.holds σ = l.holds τ := fun l hl =>
      hlit l (List.mem_append_left _ (List.mem_flatMap.mpr ⟨g, hg, hl⟩))
    obtain ⟨hout, hin⟩ := List.forall_mem_cons.mp hlits
    have hmap : g.input.map (Lit.holds σ) = g.input.map (Lit.holds τ) :=
      List.map_congr_left hin
    have hany : g.input.any (Lit.holds σ) = g.input.any (Lit.holds τ) := by
      simpa [List.any_map, Function.comp_def] using congrArg (List.any · id) hmap
    have hall : g.input.all (Lit.holds σ) = g.input.all (Lit.holds τ) := by
      simpa [List.all_map, Function.comp_def] using congrArg (List.all · id) hmap
    unfold BcGate.holds
    rw [hout, hany, hall]
  rw [sat, sat]
  congr 1
  · rw [Bool.eq_iff_iff, List.all_eq_true, List.all_eq_true]
    exact forall₂_congr fun g hg => by rw [hgate g hg]
  · rw [Bool.eq_iff_iff, List.all_eq_true, List.all_eq_true]
    exact forall₂_congr fun l hl => by rw [hlit l (List.mem_append_right _ hl)]

namespace Prepared

variable {p : Prepared}

theorem occurs_iff {v : Nat} : p.occurs v = true ↔ p.problem.Occurs v := by
  rw [occurs, List.any_eq_true]
  exact exists_congr fun l => and_congr_right fun _ => decide_eq_true_iff

theorem mem_occurring {v : Nat} :
    v ∈ p.occurring ↔ v ∈ Finset.Icc 1 p.circuit.nbVars ∧ p.problem.Occurs v := by
  rw [occurring, List.mem_filter, occurs_iff, List.mem_range'_1, Finset.mem_Icc]
  exact and_congr_left fun _ => by omega

theorem mem_unused {v : Nat} :
    v ∈ p.unused ↔ v ∈ Finset.Icc 1 p.circuit.nbVars ∧ ¬ p.problem.Occurs v := by
  rw [unused, List.mem_filter, Bool.not_eq_true', ← Bool.not_eq_true, occurs_iff,
    List.mem_range'_1, Finset.mem_Icc]
  exact and_congr_left fun _ => by omega

theorem mem_branches {e : DataBranch CallTree} : e ∈ p.branches ↔
    ∃ ls ∈ cubes p.occurring, p.problem.sat (cubeValue ls) = true ∧ p.branch ls = e := by
  simp [branches, and_assoc]

theorem live_branches : liveBranches p.branches = p.branches := by
  refine List.filter_eq_self.mpr fun e he => ?_
  obtain ⟨ls, -, -, rfl⟩ := mem_branches.mp he
  rfl

theorem mem_live {e : DataBranch CallTree} (he : e ∈ liveBranches p.branches) :
    ∃ ls ∈ cubes p.occurring, p.branch ls = e := by
  rw [live_branches] at he
  obtain ⟨ls, hls, -, rfl⟩ := mem_branches.mp he
  exact ⟨ls, hls, rfl⟩

theorem ownVars_branch {ls : List Lit} (h : ls ∈ cubes p.occurring) :
    (p.branch ls).ownVars = p.occurring ++ p.unused := by
  rw [DataBranch.ownVars, branch, map_var_of_mem_cubes h]

theorem nodup_vars : (p.occurring ++ p.unused).Nodup := by
  have hrange : (List.range' 1 p.circuit.nbVars).Nodup := List.nodup_range'
  refine List.nodup_append.mpr ⟨hrange.filter _, hrange.filter _, ?_⟩
  rintro v hv u hu rfl
  exact (mem_unused.mp hu).2 (mem_occurring.mp hv).2

theorem toFinset_vars : (p.occurring ++ p.unused).toFinset = Finset.Icc 1 p.circuit.nbVars := by
  ext v
  rw [List.mem_toFinset, List.mem_append, mem_occurring, mem_unused, ← and_or_left]
  exact and_iff_left (Classical.em _)

theorem sat_reference (h : p.Covered) (σ : Nat → Bool) :
    p.reference.sat σ = p.problem.sat σ := by
  have hsame : ∀ ls ∈ cubes p.occurring, ls.all (Lit.holds σ) = true →
      p.problem.sat (cubeValue ls) = p.problem.sat σ := by
    intro ls hls hσ
    refine ProblemManagerCircuit.sat_congr fun l hl => cubeValue_eq hls hσ ?_
    obtain ⟨h1, hle⟩ := h.var l hl
    exact mem_occurring.mpr ⟨Finset.mem_Icc.mpr ⟨h1, hle⟩, l, hl, rfl⟩
  have hbranch : ∀ ls, (CallTree.manageBranch (p.branch ls)).sat σ = ls.all (Lit.holds σ) := by
    intro ls
    rw [CallTree.sat_manageBranch]
    exact Bool.and_true _
  rw [reference, CallTree.sat_manageDeterministOr, Bool.eq_iff_iff, List.any_eq_true]
  constructor
  · rintro ⟨e, he, hsat⟩
    obtain ⟨ls, hls, hsolves, rfl⟩ := mem_branches.mp he
    rw [hbranch] at hsat
    rw [← hsame ls hls hsat, hsolves]
  · intro hsat
    have hcube : (p.occurring.map fun v => (⟨v, !σ v⟩ : Lit)).all (Lit.holds σ) = true := by
      simp [Lit.holds]
    refine ⟨_, mem_branches.mpr ⟨_, mem_cubes σ _, ?_, rfl⟩, (hbranch _).trans hcube⟩
    rw [hsame _ (mem_cubes σ _) hcube, hsat]

/-- Every problem has a run. -/
theorem reference_isRun (h : p.Covered) : p.IsRun p.reference where
  scope := by
    refine .manageDeterministOr (fun _ => ∅) (fun e he => ?_) fun e he => ?_
    · obtain ⟨ls, hls, rfl⟩ := mem_live he
      refine ⟨⟨?_, by simp⟩, ?_⟩
      · rw [ownVars_branch hls]
        exact nodup_vars
      · rw [DataBranch.scope, ownVars_branch hls, toFinset_vars, Finset.union_empty]
    · obtain ⟨ls, -, rfl⟩ := mem_live he
      exact .createTop
  deterministic := by
    refine .manageDeterministOr ?_ (fun _ _ => trivial) fun e he => ?_
    · rw [live_branches]
      exact List.pairwise_map.mpr ((cubes_opposed p.occurring).sublist List.filter_sublist)
    · obtain ⟨ls, -, rfl⟩ := mem_live he
      exact .createTop
  plainTops := by
    refine .manageDeterministOr trivial (fun _ _ => trivial) fun e he => ?_
    obtain ⟨ls, -, rfl⟩ := mem_live he
    exact .createTop
  mentioned := by
    intro v hv
    rw [reference, CallTree.mentioned_manageDeterministOr] at hv
    obtain ⟨e, he, hve⟩ := List.mem_flatMap.mp hv
    obtain ⟨ls, hls, -, rfl⟩ := mem_branches.mp he
    rw [CallTree.mentioned_manageBranch, ownVars_branch hls] at hve
    rw [← toFinset_vars, List.mem_toFinset]
    simpa [branch, CallTree.mentioned, mentionOperation] using hve
  equivalent := sat_reference h
  units := by
    refine .manageDeterministOr trivial (fun e he => ?_) fun e he => ?_
    · obtain ⟨ls, hls, rfl⟩ := mem_live he
      intro l hl
      have hvar : l.var ∈ p.occurring := by
        rw [← map_var_of_mem_cubes hls]
        exact List.mem_map_of_mem hl
      exact (mem_occurring.mp hvar).2
    · obtain ⟨ls, -, rfl⟩ := mem_live he
      exact .createTop

end Prepared

end Kompyle
