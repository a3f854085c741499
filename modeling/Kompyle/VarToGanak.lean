import Kompyle.GanakInstance
import Mathlib.Data.List.Nodup

namespace Kompyle

def SimplifiedCNF.allActive {F : Type*} (cnf : SimplifiedCNF F) : Finset Nat :=
  (cnf.clauses.flatten.map CmsLit.var).toFinset ∪ (cnf.redClauses.flatten.map CmsLit.var).toFinset

/-- The table and the counter of the loops that number the variables: 0 is no number. -/
structure Numbering where
  varToGanak : Nat → Nat
  nextGv : Nat

namespace Numbering

def start : Numbering := ⟨fun _ => 0, 1⟩

/-- `var_to_ganak[v] = next_gv++`. -/
def assign (m : Numbering) (v : Nat) : Numbering :=
  ⟨Function.update m.varToGanak v m.nextGv, m.nextGv + 1⟩

def assignIf (test : Numbering → Nat → Bool) (vs : List Nat) (m : Numbering) : Numbering :=
  vs.foldl (fun m v => if test m v then m.assign v else m) m

/-- The members of `vs` have the numbers from 1 on, in their order, and no other variable has
a number. -/
structure Lists (m : Numbering) (vs : List Nat) : Prop where
  nodup : vs.Nodup
  nextGv : m.nextGv = vs.length + 1
  varToGanak : ∀ v, m.varToGanak v = if v ∈ vs then vs.idxOf v + 1 else 0

theorem start_lists : start.Lists [] := ⟨List.nodup_nil, rfl, fun _ => rfl⟩

theorem Lists.assign {m : Numbering} {vs : List Nat} (h : m.Lists vs) {v : Nat} (hv : v ∉ vs) :
    (m.assign v).Lists (vs ++ [v]) := by
  have hnodup : (vs ++ [v]).Nodup := by
    rw [List.nodup_append]
    refine ⟨h.nodup, List.nodup_singleton v, fun a ha b hb => ?_⟩
    rw [List.mem_singleton.mp hb]
    exact fun he => hv (he ▸ ha)
  have hnext : (m.assign v).nextGv = (vs ++ [v]).length + 1 := by
    have := h.nextGv
    simp only [Numbering.assign, List.length_append, List.length_singleton]
    omega
  refine ⟨hnodup, hnext, fun u => ?_⟩
  by_cases hu : u = v
  · subst hu
    have hidx : (vs ++ [u]).idxOf u = vs.length := by
      rw [List.idxOf_append_of_notMem hv]
      simp
    show Function.update m.varToGanak u m.nextGv u = _
    rw [Function.update_self, hidx, if_pos (by simp), h.nextGv]
  · show Function.update m.varToGanak v m.nextGv u = _
    rw [Function.update_of_ne hu, h.varToGanak]
    by_cases hm : u ∈ vs
    · rw [if_pos hm, if_pos (List.mem_append_left _ hm), List.idxOf_append_of_mem hm]
    · have hn : u ∉ vs ++ [v] := by simp [hm, hu]
      rw [if_neg hm, if_neg hn]

theorem Lists.assignIf {test : Numbering → Nat → Bool} {keep : Nat → Bool} {l : List Nat} :
    ∀ {m : Numbering} {vs : List Nat}, m.Lists vs → l.Nodup →
      (∀ m' us, m'.Lists us → ∀ v ∈ l, (v ∈ us ↔ v ∈ vs) → test m' v = keep v) →
      (∀ v ∈ l, keep v = true → v ∉ vs) → (m.assignIf test l).Lists (vs ++ l.filter keep) := by
  induction l with
  | nil =>
    intro m vs h _ _ _
    simpa [Numbering.assignIf] using h
  | cons v l ih =>
    intro m vs h hl htest hnew
    obtain ⟨hv, hl⟩ := List.nodup_cons.mp hl
    have hstep : m.assignIf test (v :: l) =
        (if test m v then m.assign v else m).assignIf test l := rfl
    rw [hstep, htest m vs h v List.mem_cons_self Iff.rfl]
    cases hk : keep v with
    | false =>
      rw [if_neg Bool.false_ne_true, List.filter_cons_of_neg (by simp [hk])]
      exact ih h hl (fun m' us hus u hu => htest m' us hus u (List.mem_cons_of_mem v hu))
        fun u hu => hnew u (List.mem_cons_of_mem v hu)
    | true =>
      have hnotin : v ∉ vs := hnew v List.mem_cons_self hk
      have hother : ∀ u ∈ l, (u ∈ vs ++ [v] ↔ u ∈ vs) := by
        intro u hu
        have hne : u ≠ v := fun he => hv (he ▸ hu)
        simp [hne]
      rw [if_pos rfl, List.filter_cons_of_pos hk, List.append_cons]
      apply ih (h.assign hnotin) hl
      · intro m' us hus u hu hiff
        exact htest m' us hus u (List.mem_cons_of_mem v hu) (hiff.trans (hother u hu))
      · intro u hu hkeep
        rw [hother u hu]
        exact hnew u (List.mem_cons_of_mem v hu) hkeep

section

variable {m : Numbering} {vs : List Nat}

theorem Lists.varToGanak_pos (h : m.Lists vs) {v : Nat} : 0 < m.varToGanak v ↔ v ∈ vs := by
  rw [h.varToGanak]
  split
  next hv => simp [hv]
  next hv => simp [hv]

theorem Lists.varToGanak_lt (h : m.Lists vs) (v : Nat) : m.varToGanak v < m.nextGv := by
  rw [h.varToGanak, h.nextGv]
  split
  next hv =>
    have := List.idxOf_lt_length_of_mem hv
    omega
  next => omega

theorem Lists.getElem? (h : m.Lists vs) {v : Nat} (hv : v ∈ vs) :
    vs[m.varToGanak v - 1]? = some v := by
  rw [h.varToGanak, if_pos hv]
  exact List.getElem?_idxOf hv

theorem Lists.injOn (h : m.Lists vs) : Set.InjOn m.varToGanak vs.toFinset := by
  intro u hu v hv he
  have hu' := h.getElem? (List.mem_toFinset.mp (Finset.mem_coe.mp hu))
  have hv' := h.getElem? (List.mem_toFinset.mp (Finset.mem_coe.mp hv))
  rw [he] at hu'
  exact Option.some.inj (hu'.symm.trans hv')

theorem Lists.image_segment {us ws : List Nat} (h : m.Lists (us ++ ws ++ vs)) :
    ws.toFinset.image m.varToGanak =
      Finset.Ico (us.length + 1) (us.length + ws.length + 1) := by
  have hnodup : (us ++ ws).Nodup := (List.nodup_append.mp h.nodup).1
  obtain ⟨-, hws, hapart⟩ := List.nodup_append.mp hnodup
  have hnumber : ∀ w ∈ ws, m.varToGanak w = us.length + ws.idxOf w + 1 := by
    intro w hw
    have hus : w ∉ us := fun hu => hapart w hu w hw rfl
    have hmem : w ∈ us ++ ws := List.mem_append_right us hw
    rw [h.varToGanak, if_pos (List.mem_append_left vs hmem), List.idxOf_append_of_mem hmem,
      List.idxOf_append_of_notMem hus]
  ext g
  simp only [Finset.mem_image, List.mem_toFinset, Finset.mem_Ico]
  constructor
  · rintro ⟨w, hw, rfl⟩
    rw [hnumber w hw]
    have := List.idxOf_lt_length_of_mem hw
    omega
  · intro hg
    have hlt : g - us.length - 1 < ws.length := by omega
    refine ⟨ws[g - us.length - 1], List.getElem_mem hlt, ?_⟩
    rw [hnumber _ (List.getElem_mem hlt), hws.idxOf_getElem]
    omega

theorem Lists.image_append {us : List Nat} (h : m.Lists (us ++ vs)) :
    us.toFinset.image m.varToGanak = Finset.Icc 1 us.length := by
  have hlists : m.Lists ([] ++ us ++ vs) := h
  rw [hlists.image_segment]
  ext g
  simp only [List.length_nil, Finset.mem_Ico, Finset.mem_Icc]
  omega

end

end Numbering

namespace SimplifiedCNF

variable {F : Type*} (cnf : SimplifiedCNF F)

/-- The first loop: the sampling variables that occur. -/
def numberSampl : Numbering :=
  Numbering.start.assignIf (fun _ v => v ∈ cnf.allActive) cnf.samplVars

/-- The second loop: the other optional sampling variables that occur. -/
def numberOptSampl : Numbering :=
  cnf.numberSampl.assignIf (fun _ v => !decide (v ∈ cnf.samplVars.toFinset) && v ∈ cnf.allActive)
    cnf.optSamplVars

/-- The third loop: whatever else occurs. -/
def numberAll : Numbering :=
  cnf.numberOptSampl.assignIf (fun m v => m.varToGanak v == 0) (inOrder cnf.allActive)

def varToGanak : Nat → Nat := cnf.numberAll.varToGanak

def indepEnd : Nat := cnf.numberSampl.nextGv

def optIndepEnd : Nat := cnf.numberOptSampl.nextGv

def totalGv : Nat := cnf.numberAll.nextGv - 1

def samplActive : List Nat := cnf.samplVars.filter fun v => v ∈ cnf.allActive

def optSamplActive : List Nat :=
  cnf.optSamplVars.filter fun v => !decide (v ∈ cnf.samplVars.toFinset) && v ∈ cnf.allActive

def otherActive : List Nat :=
  (inOrder cnf.allActive).filter fun v => v ∉ cnf.samplActive ++ cnf.optSamplActive

def sampled : Finset Nat :=
  (cnf.samplVars ++ cnf.optSamplVars).toFinset.filter fun v => v ∈ cnf.allActive

structure DuplicateFree : Prop where
  sampl : cnf.samplVars.Nodup
  optSampl : cnf.optSamplVars.Nodup

variable {cnf}

theorem numberSampl_lists (h : cnf.DuplicateFree) : cnf.numberSampl.Lists cnf.samplActive := by
  have hlists : cnf.numberSampl.Lists ([] ++ cnf.samplActive) :=
    Numbering.start_lists.assignIf h.sampl (fun _ _ _ _ _ _ => rfl) fun _ _ _ => List.not_mem_nil
  rwa [List.nil_append] at hlists

theorem numberOptSampl_lists (h : cnf.DuplicateFree) :
    cnf.numberOptSampl.Lists (cnf.samplActive ++ cnf.optSamplActive) := by
  apply (numberSampl_lists h).assignIf h.optSampl
  · intro _ _ _ v _ _
    rfl
  · intro v _ hkeep hv
    have hs : v ∈ cnf.samplVars := (List.mem_filter.mp hv).1
    simp [hs] at hkeep

theorem numberAll_lists (h : cnf.DuplicateFree) :
    cnf.numberAll.Lists (cnf.samplActive ++ cnf.optSamplActive ++ cnf.otherActive) := by
  apply (numberOptSampl_lists h).assignIf (nodup_inOrder _)
  · intro m us hus v _ hiff
    have hpos := hus.varToGanak_pos (v := v)
    rw [Bool.eq_iff_iff, beq_iff_eq, decide_eq_true_eq, ← hiff, ← hpos]
    omega
  · intro v _ hkeep
    exact of_decide_eq_true hkeep

theorem toFinset_sampled : (cnf.samplActive ++ cnf.optSamplActive).toFinset = cnf.sampled := by
  ext v
  simp only [samplActive, optSamplActive, sampled, List.mem_toFinset, List.mem_append,
    List.mem_filter, Finset.mem_filter, Bool.and_eq_true, decide_eq_true_eq, Bool.not_eq_true',
    decide_eq_false_iff_not]
  by_cases hs : v ∈ cnf.samplVars
  · simp [hs]
  · simp [hs]

theorem toFinset_active :
    (cnf.samplActive ++ cnf.optSamplActive ++ cnf.otherActive).toFinset = cnf.allActive := by
  ext v
  rw [List.toFinset_append, toFinset_sampled, Finset.mem_union, List.mem_toFinset, otherActive,
    List.mem_filter, mem_inOrder, decide_eq_true_eq, ← List.mem_toFinset, toFinset_sampled]
  have hsub : v ∈ cnf.sampled → v ∈ cnf.allActive := fun hv => (Finset.mem_filter.mp hv).2
  by_cases hv : v ∈ cnf.sampled
  · simp [hv, hsub hv]
  · simp [hv]

end SimplifiedCNF

end Kompyle
