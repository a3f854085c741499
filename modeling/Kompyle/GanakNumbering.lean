import Kompyle.ArjunGanak

namespace Kompyle

namespace SimplifiedCNF

variable {F : Type*} {cnf : SimplifiedCNF F}

theorem toFinset_samplActive :
    cnf.samplActive.toFinset = cnf.samplVars.toFinset ∩ cnf.allActive := by
  ext v
  simp [samplActive]

theorem toFinset_optSamplActive : cnf.optSamplActive.toFinset =
    (cnf.optSamplVars.toFinset \ cnf.samplVars.toFinset) ∩ cnf.allActive := by
  ext v
  simp [optSamplActive, and_assoc]

theorem toFinset_otherActive : cnf.otherActive.toFinset =
    cnf.allActive \ (cnf.samplVars.toFinset ∪ cnf.optSamplVars.toFinset) := by
  ext v
  simp only [otherActive, List.mem_toFinset, List.mem_filter, mem_inOrder, decide_eq_true_eq,
    Finset.mem_sdiff, Finset.mem_union]
  refine and_congr_right fun hv => not_congr ?_
  rw [← List.mem_toFinset, toFinset_sampled, sampled, Finset.mem_filter]
  simp [hv]

theorem indepEnd_eq (h : cnf.DuplicateFree) : cnf.indepEnd = cnf.samplActive.length + 1 :=
  (numberSampl_lists h).nextGv

theorem optIndepEnd_eq (h : cnf.DuplicateFree) :
    cnf.optIndepEnd = cnf.samplActive.length + cnf.optSamplActive.length + 1 := by
  have hnext := (numberOptSampl_lists h).nextGv
  rwa [List.length_append] at hnext

theorem totalGv_eq (h : cnf.DuplicateFree) : cnf.totalGv =
    cnf.samplActive.length + cnf.optSamplActive.length + cnf.otherActive.length := by
  have hnext := (numberAll_lists h).nextGv
  rw [List.length_append, List.length_append] at hnext
  unfold totalGv
  omega

theorem varToGanak_pos (h : cnf.DuplicateFree) {v : Nat} :
    0 < cnf.varToGanak v ↔ v ∈ cnf.allActive := by
  rw [← toFinset_active, List.mem_toFinset]
  exact (numberAll_lists h).varToGanak_pos

theorem varToGanak_le (h : cnf.DuplicateFree) (v : Nat) : cnf.varToGanak v ≤ cnf.totalGv := by
  have hlt := (numberAll_lists h).varToGanak_lt v
  unfold varToGanak totalGv
  omega

theorem image_samplActive (h : cnf.DuplicateFree) :
    cnf.samplActive.toFinset.image cnf.varToGanak = Finset.Ico 1 cnf.indepEnd := by
  have hlists := numberAll_lists h
  rw [List.append_assoc] at hlists
  rw [indepEnd_eq h]
  exact hlists.image_append

theorem image_optSamplActive (h : cnf.DuplicateFree) :
    cnf.optSamplActive.toFinset.image cnf.varToGanak =
      Finset.Ico cnf.indepEnd cnf.optIndepEnd := by
  rw [indepEnd_eq h, optIndepEnd_eq h]
  exact (numberAll_lists h).image_segment

theorem image_otherActive (h : cnf.DuplicateFree) :
    cnf.otherActive.toFinset.image cnf.varToGanak =
      Finset.Icc cnf.optIndepEnd cnf.totalGv := by
  have hlists := numberAll_lists h
  rw [← List.append_nil (_ ++ _ ++ _)] at hlists
  have himage := hlists.image_segment
  rw [List.length_append] at himage
  rw [optIndepEnd_eq h, totalGv_eq h]
  exact himage

theorem image_allActive (h : cnf.DuplicateFree) :
    cnf.allActive.image cnf.varToGanak = Finset.Icc 1 cnf.totalGv := by
  have hlists := numberAll_lists h
  rw [← List.append_nil (_ ++ _ ++ _)] at hlists
  have himage := hlists.image_append
  rw [toFinset_active, List.length_append, List.length_append] at himage
  rw [totalGv_eq h]
  exact himage

theorem varToGanak_bijOn (h : cnf.DuplicateFree) :
    Set.BijOn cnf.varToGanak cnf.allActive (Finset.Icc 1 cnf.totalGv) := by
  rw [← image_allActive h, Finset.coe_image]
  exact (injOn_varToGanak h).bijOn_image

/-- The three loops number the variables that occur from 1 on without gaps, those of the
independent support first and those of the optional one next, and no other variable. So no
clause has a variable without a number, or one that Ganak was not told of. -/
theorem varToGanak_partitions (dup : F → F) (h : cnf.DuplicateFree) :
    Set.BijOn cnf.varToGanak cnf.allActive (Finset.Icc 1 cnf.totalGv) ∧
    (∀ v, v ∉ cnf.allActive → cnf.varToGanak v = 0) ∧
    (cnf.samplVars.toFinset ∩ cnf.allActive).image cnf.varToGanak =
      Finset.Ico 1 cnf.indepEnd ∧
    ((cnf.optSamplVars.toFinset \ cnf.samplVars.toFinset) ∩ cnf.allActive).image cnf.varToGanak =
      Finset.Ico cnf.indepEnd cnf.optIndepEnd ∧
    (cnf.allActive \ (cnf.samplVars.toFinset ∪ cnf.optSamplVars.toFinset)).image cnf.varToGanak =
      Finset.Icc cnf.optIndepEnd cnf.totalGv ∧
    ∀ cl ∈ cnf.clauses ++ cnf.redClauses, (∀ l ∈ cl, cnf.varToGanak l.var ≠ 0) ∧
      ∀ l ∈ arjunToGanakCl cnf.varToGanak cl,
        1 ≤ l.var ∧ l.var ≤ (arjunInstance dup cnf).newVars := by
  refine ⟨varToGanak_bijOn h, fun v hv => ?_, ?_, ?_, ?_, fun cl hcl => ?_⟩
  · have hpos := (varToGanak_pos h).not.mpr hv
    omega
  · rw [← toFinset_samplActive, image_samplActive h]
  · rw [← toFinset_optSamplActive, image_optSamplActive h]
  · rw [← toFinset_otherActive, image_otherActive h]
  · have hnumbered : ∀ l ∈ cl, 0 < cnf.varToGanak l.var :=
      fun l hl => (varToGanak_pos h).mpr (mem_allActive.mpr ⟨cl, hcl, l, hl, rfl⟩)
    refine ⟨fun l hl => (hnumbered l hl).ne', fun g hg => ?_⟩
    obtain ⟨l, hl, rfl⟩ := List.mem_map.mp hg
    have hpos := hnumbered l hl
    have hle := varToGanak_le h l.var
    have htotal : cnf.totalGv ≠ 0 := by omega
    rw [arjunInstance_of_active dup htotal]
    exact ⟨hpos, hle⟩

/-- The two lists overlap, and neither has all variables that occur. -/
def overlappingCnf : SimplifiedCNF Nat where
  nVars := 6
  clauses := [[⟨4, true⟩, ⟨0, false⟩], [⟨3, true⟩, ⟨5, true⟩]]
  redClauses := [[⟨0, true⟩, ⟨2, false⟩]]
  samplVarsSet := true
  samplVars := [0, 1, 2]
  optSamplVars := [2, 5, 1, 0]
  weights _ := none
  multiplierWeight := 1

theorem overlapping_partitions :
    Set.BijOn overlappingCnf.varToGanak overlappingCnf.allActive
      (Finset.Icc 1 overlappingCnf.totalGv) ∧
    overlappingCnf.indepEnd = 3 ∧ overlappingCnf.optIndepEnd = 4 ∧
    overlappingCnf.totalGv = 5 :=
  ⟨(varToGanak_partitions id ⟨by decide, by decide⟩).1, by decide, by decide, by decide⟩

end SimplifiedCNF

end Kompyle
