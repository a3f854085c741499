import Kompyle.GanakPipeline

/-!
An Arjun and a Ganak with the behaviour that is relied on: an Arjun that finds nothing to
simplify, and a Ganak that goes through all assignments.
-/

namespace Kompyle

open WeightedCount SemiringProgram

section

variable {F : Type} (I : Impl GanakLit F)

/-- The products of the literals of the assignments that count. -/
noncomputable def GanakInstance.terms (inst : GanakInstance F) : List (List GanakLit) :=
  (inst.optionalIndepSupport.powerset.filter fun A =>
      project inst.optionalIndepSupport inst.sat (indicator A) = true).toList.map fun A =>
    (inOrder inst.optionalIndepSupport).map fun v => ⟨v, indicator A v⟩

noncomputable def GanakInstance.enumerate (inst : GanakInstance F) : F :=
  (eval (I.withLit fun l => some ((inst.weight? l).getD I.one)) (polynomial inst.terms) 0).getD
    I.zero

theorem toFinset_inOrder (s : Finset Nat) : (inOrder s).toFinset = s := by
  ext v
  rw [List.mem_toFinset, mem_inOrder]

theorem eval_terms (inst : GanakInstance F) {R : Type} [CommSemiring R] (ω : GanakLit → R) :
    eval (semiring ω) (polynomial inst.terms) 0 =
      some (WeightedCount.count (fun v b => ω ⟨v, b⟩) inst.optionalIndepSupport
        (project inst.optionalIndepSupport inst.sat)) := by
  have hterm : ∀ A : Finset Nat,
      (((inOrder inst.optionalIndepSupport).map fun v => (⟨v, indicator A v⟩ : GanakLit)).map
        ω).prod = weight (fun v b => ω ⟨v, b⟩) inst.optionalIndepSupport (indicator A) := by
    intro A
    have hprod := List.prod_toFinset (fun v => ω ⟨v, indicator A v⟩)
      (nodup_inOrder inst.optionalIndepSupport)
    rw [toFinset_inOrder] at hprod
    rw [List.map_map, weight, hprod]
    rfl
  rw [eval_polynomial, GanakInstance.terms, List.map_map, WeightedCount.count,
    ← Finset.sum_filter, ← Finset.sum_map_toList]
  exact congrArg (fun l => some (List.sum l)) (List.map_congr_left fun A _ => hterm A)

theorem enumerate_answers (inst : GanakInstance F) : Answers I inst (inst.enumerate I) := by
  obtain ⟨x, hx⟩ := eval_isSome (I := I.withLit fun l => some ((inst.weight? l).getD I.one))
    (fun _ => rfl) (eval_terms inst fun _ => (1 : ℕ))
  refine ⟨polynomial inst.terms, 0, ?_, fun R _ ω => eval_terms inst ω⟩
  rw [GanakInstance.enumerate, hx]
  rfl

end

section

variable {F : Type}

/-- A clause that always holds, for a variable that is to occur. -/
def excludedMiddle (v : Nat) : List CmsLit := [⟨v, false⟩, ⟨v, true⟩]

/-- Sampling variables are listed once each and occur. -/
def ArjunCNF.settle (cnf : ArjunCNF F) : ArjunCNF F :=
  { cnf with
    clauses := cnf.clauses ++ (inOrder (cnf.scope \ cnf.allActive)).map excludedMiddle
    samplVars := cnf.samplVars.dedup
    optSamplVars := cnf.optSamplVars.dedup }

def Arjun.reference : Arjun F where
  settings :=
    { verb := 0, orGateBased := 1, xorGatesBased := 1, iteGateBased := 1, irregGateBased := 1
      probeBased := 1, simp := 1, backwMaxConfl := 20000, oracleFindBins := 0, cmsGlobMult := -1
      extendMaxConfl := 1000, autarkies := 0, extendCcnr := 0 }
  setSamplVars cnf vs := { cnf with samplVarsSet := true, samplVars := vs }
  setOptSamplVars cnf vs := { cnf with optSamplVars := vs, optSamplVarsSet := true }
  setWeighted cnf b := { cnf with weighted := b }
  setLitWeight cnf l x :=
    { cnf with
      weights := Function.update cnf.weights l.var (some
        (if l.sign then (((cnf.weights l.var).map Prod.fst).getD x, x)
        else (x, ((cnf.weights l.var).map Prod.snd).getD x))) }
  standaloneBackbone _ cnf := cnf
  standaloneMinimizeIndep _ cnf _ := cnf
  standaloneElimToFile _ cnf _ := cnf.settle
  renumberSamplingVarsForGanak cnf := cnf.settle

theorem sat_settle (cnf : ArjunCNF F) : cnf.settle.sat = cnf.sat := by
  funext σ
  have hmiddle : ∀ v, (excludedMiddle v).any (CmsLit.holds σ) = true := by
    intro v
    cases h : σ v with
    | true => simp [excludedMiddle, CmsLit.holds, h]
    | false => simp [excludedMiddle, CmsLit.holds, h]
  have hadded : ((inOrder (cnf.scope \ cnf.allActive)).map excludedMiddle).all
      (fun cl => cl.any (CmsLit.holds σ)) = true := by
    rw [List.all_map, List.all_eq_true]
    exact fun v _ => hmiddle v
  have hclauses : cnf.settle.clauses ++ cnf.settle.redClauses = cnf.clauses ++
      (inOrder (cnf.scope \ cnf.allActive)).map excludedMiddle ++ cnf.redClauses := rfl
  rw [SimplifiedCNF.sat, SimplifiedCNF.sat, hclauses, List.all_append, List.all_append, hadded,
    Bool.and_true, ← List.all_append]

theorem scope_settle (cnf : ArjunCNF F) : cnf.settle.scope = cnf.scope := by
  ext v
  simp [SimplifiedCNF.scope, ArjunCNF.settle]

theorem sampled_settle (cnf : ArjunCNF F) : cnf.settle.sampled = cnf.scope := by
  have hscope := scope_settle cnf
  ext v
  rw [SimplifiedCNF.sampled, Finset.mem_filter, List.toFinset_append]
  change v ∈ cnf.settle.scope ∧ _ ↔ _
  rw [hscope]
  refine and_iff_left_of_imp fun hv => ?_
  by_cases hactive : v ∈ cnf.allActive
  · obtain ⟨cl, hcl, l, hl, hvar⟩ := mem_allActive.mp hactive
    refine mem_allActive.mpr ⟨cl, ?_, l, hl, hvar⟩
    rcases List.mem_append.mp hcl with hcl | hcl
    · exact List.mem_append_left _ (List.mem_append_left _ hcl)
    · exact List.mem_append_right _ hcl
  · refine mem_allActive.mpr ⟨excludedMiddle v, ?_, ⟨v, false⟩, List.mem_cons_self, rfl⟩
    have hmissing : v ∈ inOrder (cnf.scope \ cnf.allActive) :=
      mem_inOrder.mpr (Finset.mem_sdiff.mpr ⟨hv, hactive⟩)
    exact List.mem_append_left _ (List.mem_append_right _ (List.mem_map_of_mem hmissing))

theorem settle_leavesTotal (I : Impl GanakLit F) (cnf : ArjunCNF F) :
    LeavesTotal I cnf cnf.settle where
  duplicateFree := ⟨List.nodup_dedup _, List.nodup_dedup _⟩
  total ω _ := by
    rw [SimplifiedCNF.projectedCount, sampled_settle, sat_settle]
    rfl

theorem reference_documented (I : Impl GanakLit F) : (Arjun.reference (F := F)).Documented I where
  setSamplVars cnf vs _ _ := ⟨cnf.optSamplVars, cnf.optSamplVarsSet, .inl rfl, rfl⟩
  setOptSamplVars cnf vs _ := ⟨vs, rfl, rfl⟩
  setWeighted _ _ := rfl
  setLitWeight cnf l x _ _ := by
    refine ⟨_, ?_, ?_, rfl⟩
    · cases l.sign with
      | true => rfl
      | false => rfl
    · intro q hq
      cases l.sign with
      | true => simp [hq]
      | false => simp [hq]
  standaloneBackbone _ cnf := ⟨fun _ _ => rfl, id⟩
  standaloneMinimizeIndep _ cnf _ _ := ⟨fun _ _ => rfl, id⟩
  standaloneElimToFile _ cnf _ _ := settle_leavesTotal I cnf
  renumberSamplingVarsForGanak cnf := settle_leavesTotal I cnf

/-- The two libraries, with a parser and what Ganak starts from. -/
noncomputable def GanakLibrary.reference (I : Impl GanakLit F)
    (parse : String → Option (ArjunCNF F)) : GanakLibrary F where
  arjun := Arjun.reference
  conf :=
    { verb := 0, doChronobt := 1, doUseSatSolver := 1, doRestart := 0, firstRestart := 20000
      maximumCacheSizeMB := 2500, polarType := 0, rdbKeepUsed := 0, doTd := 1, tdVarlim := 150000
      tdMaxweight := 60, tdMinweight := 7, tdDivider := 1000, tdExpMult := 11 / 10, tdIters := 900 }
  count _ inst := inst.enumerate I
  parseDimacs := parse

theorem library_documented (I : Impl GanakLit F) (parse : String → Option (ArjunCNF F)) :
    (GanakLibrary.reference I parse).Documented I :=
  ⟨reference_documented I, fun _ inst _ => enumerate_answers I inst⟩

end

end Kompyle
