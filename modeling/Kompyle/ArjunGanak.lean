import Kompyle.CountField
import Kompyle.FieldCircuit
import Kompyle.KlayReference
import Kompyle.ListLoops
import Kompyle.VarToGanak

namespace Kompyle

open ListLoops WeightedCount

/-- A null pointer counts nothing. -/
def extractMpz : Option FCount → Int
  | none => 0
  | some f => f.val

def arjunToGanakCl (varToGanak : Nat → Nat) (cl : List CmsLit) : List GanakLit :=
  cl.map fun l => ⟨varToGanak l.var, !l.sign⟩

section

variable {F : Type*}

def weightCalls (dup : F → F) (cnf : SimplifiedCNF F) (v : Nat) : List (GanakLit × F) :=
  match cnf.weights v with
  | none => []
  | some (pos, neg) =>
    if cnf.optIndepEnd ≤ cnf.varToGanak v then []
    else [(⟨cnf.varToGanak v, true⟩, dup pos), (⟨cnf.varToGanak v, false⟩, dup neg)]

/-- The hand-over from Arjun to Ganak, the same for compiling and for counting. `dup` copies a
field value. -/
def arjunInstance (dup : F → F) (cnf : SimplifiedCNF F) : GanakInstance F :=
  if cnf.totalGv = 0 then
    { newVars := cnf.nVars
      indepSupport := ∅
      optionalIndepSupport := ∅
      irredClauses := cnf.clauses.map cmsToGanakCl
      redClauses := cnf.redClauses.map cmsToGanakCl
      litWeights := [] }
  else
    { newVars := cnf.totalGv
      indepSupport := Finset.Ico 1 cnf.indepEnd
      optionalIndepSupport := Finset.Ico 1 cnf.optIndepEnd
      irredClauses := cnf.clauses.map (arjunToGanakCl cnf.varToGanak)
      redClauses := cnf.redClauses.map (arjunToGanakCl cnf.varToGanak)
      litWeights := (inOrder cnf.allActive).flatMap (weightCalls dup cnf) }

end

/-- CompileFromCnfUsingGanak after Arjun has run. `count` is Ganak. -/
def compileArjun (K : Klay) (count : GanakInstance FCircuit → FCircuit)
    (cnf : SimplifiedCNF FCircuit) : Node :=
  let mw := cnf.multiplierWeight.node
  let g := (count (arjunInstance FCircuit.dup cnf)).node
  if g.isFalse then K.falseNode
  else if mw.isTrue then g
  else if g.isTrue then mw
  else K.andNode [mw, g]

/-- CountFromCnfUsingGanak after Arjun has run. `count` is Ganak. -/
def countArjun (count : GanakInstance FCount → FCount) (cnf : SimplifiedCNF FCount) : Int :=
  let result := count (arjunInstance FCount.dup cnf)
  let mult := extractMpz (some cnf.multiplierWeight)
  let sub := extractMpz (some result)
  if cnf.multiplierWeight.isZero then 0 else mult * sub

section

variable {F R : Type*} [CommSemiring R]

def SimplifiedCNF.sat (cnf : SimplifiedCNF F) (σ : Nat → Bool) : Bool :=
  (cnf.clauses ++ cnf.redClauses).all fun cl => cl.any (CmsLit.holds σ)

/-- The weighted count over the sampling variables that occur; what has no weight weighs one. -/
noncomputable def SimplifiedCNF.projectedCount (cnf : SimplifiedCNF F) (ω : F → R) : R :=
  count (fun v b => (cnf.weights v).elim 1 fun p => ω (if b then p.1 else p.2)) cnf.sampled
    (project cnf.sampled cnf.sat)

noncomputable def GanakInstance.projectedCount (inst : GanakInstance F) (ω : F → R) : R :=
  count (fun v b => (inst.weight? ⟨v, b⟩).elim 1 ω) inst.optionalIndepSupport
    (project inst.optionalIndepSupport inst.sat)

end

/-- The literal `m` says of the variables renamed what `l` says. -/
structure Renames (rename : Nat → Nat) (l : CmsLit) (m : GanakLit) : Prop where
  var : m.var = rename l.var
  holds : ∀ τ, m.holds τ = l.holds (τ ∘ rename)

/-- The instance is the simplified CNF with its variables renamed: irredundant clauses are
irredundant, redundant ones redundant, and the supports are the sampling variables that occur. -/
structure RenamedBy {F : Type*} (cnf : SimplifiedCNF F) (inst : GanakInstance F)
    (rename : Nat → Nat) : Prop where
  injOn : Set.InjOn rename cnf.allActive
  irredClauses : List.Forall₂ (List.Forall₂ (Renames rename)) cnf.clauses inst.irredClauses
  redClauses : List.Forall₂ (List.Forall₂ (Renames rename)) cnf.redClauses inst.redClauses
  indepSupport : inst.indepSupport =
    (cnf.samplVars.toFinset.filter fun v => v ∈ cnf.allActive).image rename
  optionalIndepSupport : inst.optionalIndepSupport = cnf.sampled.image rename

/-- The instance is the simplified CNF renamed, is over its variables and counts what the
simplified CNF counts. -/
structure HandsOver.{u, v} {F : Type u} (cnf : SimplifiedCNF F) (inst : GanakInstance F) :
    Prop where
  renamed : ∃ rename, RenamedBy cnf inst rename
  clauses : ∀ cl ∈ inst.irredClauses ++ inst.redClauses, ∀ l ∈ cl, l.var ∈ inst.vars
  indepSupport : inst.indepSupport ⊆ inst.optionalIndepSupport
  optionalIndepSupport : inst.optionalIndepSupport ⊆ inst.vars
  satisfiable : (∃ τ, inst.sat τ = true) ↔ ∃ σ, cnf.sat σ = true
  projectedCount : ∀ {R : Type v} [CommSemiring R] (ω : F → R),
    inst.projectedCount ω = cnf.projectedCount ω

section

variable {F : Type*} {cnf : SimplifiedCNF F}

theorem mem_allActive {v : Nat} :
    v ∈ cnf.allActive ↔ ∃ cl ∈ cnf.clauses ++ cnf.redClauses, ∃ l ∈ cl, l.var = v := by
  simp only [SimplifiedCNF.allActive, Finset.mem_union, List.mem_toFinset, List.mem_map,
    List.mem_flatten, List.mem_append]
  constructor
  · rintro (⟨l, ⟨cl, hcl, hl⟩, hv⟩ | ⟨l, ⟨cl, hcl, hl⟩, hv⟩)
    · exact ⟨cl, .inl hcl, l, hl, hv⟩
    · exact ⟨cl, .inr hcl, l, hl, hv⟩
  · rintro ⟨cl, hcl | hcl, l, hl, hv⟩
    · exact .inl ⟨l, ⟨cl, hcl, hl⟩, hv⟩
    · exact .inr ⟨l, ⟨cl, hcl, hl⟩, hv⟩

theorem sat_congr {σ τ : Nat → Bool} (h : ∀ v ∈ cnf.allActive, σ v = τ v) :
    cnf.sat σ = cnf.sat τ := by
  rw [SimplifiedCNF.sat, SimplifiedCNF.sat, Bool.eq_iff_iff, List.all_eq_true, List.all_eq_true]
  refine forall₂_congr fun cl hcl => ?_
  rw [List.any_eq_true, List.any_eq_true]
  refine exists_congr fun l => and_congr_right fun hl => ?_
  rw [CmsLit.holds, CmsLit.holds, h l.var (mem_allActive.mpr ⟨cl, hcl, l, hl, rfl⟩)]

theorem totalGv_eq_zero (h : cnf.DuplicateFree) : cnf.totalGv = 0 ↔ cnf.allActive = ∅ := by
  have hlists := SimplifiedCNF.numberAll_lists h
  have hnext := hlists.nextGv
  rw [← SimplifiedCNF.toFinset_active, List.toFinset_eq_empty_iff, ← List.length_eq_zero_iff]
  unfold SimplifiedCNF.totalGv
  omega

theorem totalGv_ne_zero (h : cnf.DuplicateFree) {v : Nat} (hv : v ∈ cnf.allActive) :
    cnf.totalGv ≠ 0 := by
  intro hzero
  rw [(totalGv_eq_zero h).mp hzero] at hv
  exact Finset.notMem_empty _ hv

theorem clause_eq_nil (h : cnf.allActive = ∅) {cl : List CmsLit}
    (hcl : cl ∈ cnf.clauses ++ cnf.redClauses) : cl = [] := by
  apply List.eq_nil_iff_forall_not_mem.mpr
  intro l hl
  have hmem : l.var ∈ cnf.allActive := mem_allActive.mpr ⟨cl, hcl, l, hl, rfl⟩
  rw [h] at hmem
  exact Finset.notMem_empty _ hmem

theorem arjunInstance_of_empty (dup : F → F) (h : cnf.totalGv = 0) :
    arjunInstance dup cnf =
      { newVars := cnf.nVars
        indepSupport := ∅
        optionalIndepSupport := ∅
        irredClauses := cnf.clauses.map cmsToGanakCl
        redClauses := cnf.redClauses.map cmsToGanakCl
        litWeights := [] } := if_pos h

theorem arjunInstance_of_active (dup : F → F) (h : cnf.totalGv ≠ 0) :
    arjunInstance dup cnf =
      { newVars := cnf.totalGv
        indepSupport := Finset.Ico 1 cnf.indepEnd
        optionalIndepSupport := Finset.Ico 1 cnf.optIndepEnd
        irredClauses := cnf.clauses.map (arjunToGanakCl cnf.varToGanak)
        redClauses := cnf.redClauses.map (arjunToGanakCl cnf.varToGanak)
        litWeights := (inOrder cnf.allActive).flatMap (weightCalls dup cnf) } := if_neg h

/-- An instance without variables has no literal to rename. -/
theorem map_cmsToGanakCl (h : cnf.allActive = ∅) (rename : Nat → Nat) {cls : List (List CmsLit)}
    (hcls : ∀ cl ∈ cls, cl ∈ cnf.clauses ++ cnf.redClauses) :
    cls.map cmsToGanakCl = cls.map (arjunToGanakCl rename) := by
  refine List.map_congr_left fun cl hcl => ?_
  rw [clause_eq_nil h (hcls cl hcl)]
  rfl

theorem clauses_renamed (dup : F → F) (hcnf : cnf.DuplicateFree) :
    (arjunInstance dup cnf).irredClauses = cnf.clauses.map (arjunToGanakCl cnf.varToGanak) ∧
      (arjunInstance dup cnf).redClauses =
        cnf.redClauses.map (arjunToGanakCl cnf.varToGanak) := by
  by_cases h : cnf.totalGv = 0
  · have hempty := (totalGv_eq_zero hcnf).mp h
    rw [arjunInstance_of_empty dup h]
    exact ⟨map_cmsToGanakCl hempty _ fun _ => List.mem_append_left _,
      map_cmsToGanakCl hempty _ fun _ => List.mem_append_right _⟩
  · rw [arjunInstance_of_active dup h]
    exact ⟨rfl, rfl⟩

theorem sat_arjunInstance (dup : F → F) (hcnf : cnf.DuplicateFree) (τ : Nat → Bool) :
    (arjunInstance dup cnf).sat τ = cnf.sat (τ ∘ cnf.varToGanak) := by
  obtain ⟨hirred, hred⟩ := clauses_renamed dup hcnf
  rw [SimplifiedCNF.sat, GanakInstance.sat, hirred, hred, ← List.map_append, List.all_map]
  congr 1
  ext cl
  rw [Function.comp_apply, arjunToGanakCl, List.any_map]
  rfl

def unnumber (cnf : SimplifiedCNF F) (σ : Nat → Bool) (g : Nat) : Bool :=
  ((cnf.samplActive ++ cnf.optSamplActive ++ cnf.otherActive)[g - 1]?).elim false σ

theorem unnumber_varToGanak (hcnf : cnf.DuplicateFree) (σ : Nat → Bool) {v : Nat}
    (hv : v ∈ cnf.allActive) : unnumber cnf σ (cnf.varToGanak v) = σ v := by
  rw [← SimplifiedCNF.toFinset_active, List.mem_toFinset] at hv
  have hget := (SimplifiedCNF.numberAll_lists hcnf).getElem? hv
  rw [unnumber, SimplifiedCNF.varToGanak, hget]
  rfl

theorem sampled_subset : cnf.sampled ⊆ cnf.allActive := by
  intro v hv
  exact (Finset.mem_filter.mp hv).2

theorem injOn_varToGanak (hcnf : cnf.DuplicateFree) :
    Set.InjOn cnf.varToGanak cnf.allActive := by
  rw [← SimplifiedCNF.toFinset_active]
  exact (SimplifiedCNF.numberAll_lists hcnf).injOn

theorem optionalIndepSupport_arjunInstance (dup : F → F) (hcnf : cnf.DuplicateFree) :
    (arjunInstance dup cnf).optionalIndepSupport = cnf.sampled.image cnf.varToGanak := by
  by_cases h : cnf.totalGv = 0
  · have hempty : cnf.sampled ⊆ cnf.allActive := sampled_subset
    rw [(totalGv_eq_zero hcnf).mp h, Finset.subset_empty] at hempty
    rw [arjunInstance_of_empty dup h, hempty]
    rfl
  · have himage := (SimplifiedCNF.numberAll_lists hcnf).image_append
    rw [SimplifiedCNF.toFinset_sampled] at himage
    have hnext := (SimplifiedCNF.numberOptSampl_lists hcnf).nextGv
    rw [arjunInstance_of_active dup h]
    show Finset.Ico 1 cnf.numberOptSampl.nextGv = cnf.sampled.image cnf.numberAll.varToGanak
    rw [himage, hnext]
    rfl

theorem indepSupport_arjunInstance (dup : F → F) (hcnf : cnf.DuplicateFree) :
    (arjunInstance dup cnf).indepSupport =
      (cnf.samplVars.toFinset.filter fun v => v ∈ cnf.allActive).image cnf.varToGanak := by
  by_cases h : cnf.totalGv = 0
  · rw [arjunInstance_of_empty dup h, (totalGv_eq_zero hcnf).mp h]
    simp
  · have hlists := SimplifiedCNF.numberAll_lists hcnf
    rw [List.append_assoc] at hlists
    have hscope : cnf.samplActive.toFinset =
        cnf.samplVars.toFinset.filter fun v => v ∈ cnf.allActive := by
      simp [SimplifiedCNF.samplActive, List.toFinset_filter]
    have hnext := (SimplifiedCNF.numberSampl_lists hcnf).nextGv
    rw [arjunInstance_of_active dup h]
    show Finset.Ico 1 cnf.numberSampl.nextGv = Finset.image cnf.numberAll.varToGanak _
    rw [← hscope, hlists.image_append, hnext]
    rfl

theorem varToGanak_mem_vars (dup : F → F) (hcnf : cnf.DuplicateFree) {v : Nat}
    (hv : v ∈ cnf.allActive) : cnf.varToGanak v ∈ (arjunInstance dup cnf).vars := by
  rw [arjunInstance_of_active dup (totalGv_ne_zero hcnf hv)]
  rw [← SimplifiedCNF.toFinset_active, List.mem_toFinset] at hv
  have hlists := SimplifiedCNF.numberAll_lists hcnf
  have hpos := hlists.varToGanak_pos.mpr hv
  have hlt := hlists.varToGanak_lt v
  apply Finset.mem_Icc.mpr
  show 1 ≤ cnf.numberAll.varToGanak v ∧ cnf.numberAll.varToGanak v ≤ cnf.totalGv
  unfold SimplifiedCNF.totalGv
  omega

theorem supports_arjunInstance (dup : F → F) (hcnf : cnf.DuplicateFree) :
    (arjunInstance dup cnf).indepSupport ⊆ (arjunInstance dup cnf).optionalIndepSupport ∧
      (arjunInstance dup cnf).optionalIndepSupport ⊆ (arjunInstance dup cnf).vars := by
  rw [indepSupport_arjunInstance dup hcnf, optionalIndepSupport_arjunInstance dup hcnf]
  constructor
  · apply Finset.image_subset_image
    intro v hv
    obtain ⟨hsampl, hactive⟩ := Finset.mem_filter.mp hv
    have hmem : v ∈ cnf.samplVars ++ cnf.optSamplVars :=
      List.mem_append_left _ (List.mem_toFinset.mp hsampl)
    exact Finset.mem_filter.mpr ⟨List.mem_toFinset.mpr hmem, hactive⟩
  · intro g hg
    obtain ⟨v, hv, rfl⟩ := Finset.mem_image.mp hg
    exact varToGanak_mem_vars dup hcnf (sampled_subset hv)

theorem clauses_arjunInstance (dup : F → F) (hcnf : cnf.DuplicateFree) :
    ∀ cl ∈ (arjunInstance dup cnf).irredClauses ++ (arjunInstance dup cnf).redClauses, ∀ l ∈ cl,
      l.var ∈ (arjunInstance dup cnf).vars := by
  intro cl hcl l hl
  obtain ⟨hirred, hred⟩ := clauses_renamed dup hcnf
  rw [hirred, hred, ← List.map_append] at hcl
  obtain ⟨cl', hcl', rfl⟩ := List.mem_map.mp hcl
  obtain ⟨l', hl', rfl⟩ := List.mem_map.mp hl
  exact varToGanak_mem_vars dup hcnf (mem_allActive.mpr ⟨cl', hcl', l', hl', rfl⟩)

theorem renamedBy_varToGanak (dup : F → F) (hcnf : cnf.DuplicateFree) :
    RenamedBy cnf (arjunInstance dup cnf) cnf.varToGanak := by
  have hclauses : ∀ cls : List (List CmsLit), List.Forall₂ (List.Forall₂ (Renames cnf.varToGanak))
      cls (cls.map (arjunToGanakCl cnf.varToGanak)) :=
    forall₂_map_self fun cl => forall₂_map_self (fun _ => ⟨rfl, fun _ => rfl⟩) cl
  obtain ⟨hirred, hred⟩ := clauses_renamed dup hcnf
  exact ⟨injOn_varToGanak hcnf, hirred ▸ hclauses _, hred ▸ hclauses _,
    indepSupport_arjunInstance dup hcnf, optionalIndepSupport_arjunInstance dup hcnf⟩

theorem mem_weightCalls {dup : F → F} {v : Nat} {l : GanakLit} {x : F} :
    (l, x) ∈ weightCalls dup cnf v ↔ ∃ p, cnf.weights v = some p ∧
      cnf.varToGanak v < cnf.optIndepEnd ∧ l.var = cnf.varToGanak v ∧
        x = dup (if l.sign then p.1 else p.2) := by
  unfold weightCalls
  split
  next hw => simp [hw]
  next pos neg hw =>
    by_cases hle : cnf.optIndepEnd ≤ cnf.varToGanak v
    · have hn : ¬ cnf.varToGanak v < cnf.optIndepEnd := by omega
      simp [hle, hn]
    · have hlt : cnf.varToGanak v < cnf.optIndepEnd := by omega
      obtain ⟨var, sign⟩ := l
      cases sign <;> simp [hw, hle, hlt]

/-- A sampling variable that occurs keeps its weights, each at its own polarity. -/
theorem weight_arjunInstance (dup : F → F) (hcnf : cnf.DuplicateFree) {v : Nat}
    (hv : v ∈ cnf.sampled) (b : Bool) :
    (arjunInstance dup cnf).weight? ⟨cnf.varToGanak v, b⟩ =
      (cnf.weights v).map fun p => dup (if b then p.1 else p.2) := by
  have hactive := sampled_subset hv
  have htotal := totalGv_ne_zero hcnf hactive
  have hlt : cnf.varToGanak v < cnf.optIndepEnd := by
    have hmem := Finset.mem_image_of_mem cnf.varToGanak hv
    rw [← optionalIndepSupport_arjunInstance dup hcnf, arjunInstance_of_active dup htotal] at hmem
    exact (Finset.mem_Ico.mp hmem).2
  have hcalls : ∀ x, (⟨cnf.varToGanak v, b⟩, x) ∈ (arjunInstance dup cnf).litWeights ↔
      ∃ p, cnf.weights v = some p ∧ x = dup (if b then p.1 else p.2) := by
    intro x
    rw [arjunInstance_of_active dup htotal, List.mem_flatMap]
    constructor
    · rintro ⟨u, hu, hcall⟩
      obtain ⟨p, hw, -, hvar, hx⟩ := mem_weightCalls.mp hcall
      have huv : v = u := injOn_varToGanak hcnf hactive (mem_inOrder.mp hu) hvar
      subst huv
      exact ⟨p, hw, hx⟩
    · rintro ⟨p, hw, hx⟩
      exact ⟨v, mem_inOrder.mpr hactive, mem_weightCalls.mpr ⟨p, hw, hlt, rfl, hx⟩⟩
  cases hw : cnf.weights v with
  | none =>
    apply GanakInstance.weight?_eq_none
    intro x hx
    obtain ⟨p, hp, -⟩ := (hcalls x).mp hx
    rw [hw] at hp
    cases hp
  | some p =>
    apply GanakInstance.weight?_eq_some ((hcalls _).mpr ⟨p, hw, rfl⟩)
    intro y hy
    obtain ⟨q, hq, rfl⟩ := (hcalls y).mp hy
    rw [hw] at hq
    cases hq
    rfl

theorem arjunInstance_handsOver {dup : F → F} (hdup : ∀ x, dup x = x)
    (hcnf : cnf.DuplicateFree) : HandsOver cnf (arjunInstance dup cnf) := by
  have hpush : ∀ σ : Nat → Bool, (∀ v ∈ cnf.sampled, unnumber cnf σ (cnf.varToGanak v) = σ v) ∧
      (arjunInstance dup cnf).sat (unnumber cnf σ) = cnf.sat σ := by
    intro σ
    refine ⟨fun v hv => unnumber_varToGanak hcnf σ (sampled_subset hv), ?_⟩
    rw [sat_arjunInstance dup hcnf]
    exact sat_congr fun v hv => unnumber_varToGanak hcnf σ hv
  obtain ⟨hindep, hopt⟩ := supports_arjunInstance dup hcnf
  refine ⟨⟨_, renamedBy_varToGanak dup hcnf⟩, clauses_arjunInstance dup hcnf, hindep, hopt,
    ?_, ?_⟩
  · constructor
    · intro ⟨τ, hτ⟩
      exact ⟨τ ∘ cnf.varToGanak, (sat_arjunInstance dup hcnf τ).symm.trans hτ⟩
    · intro ⟨σ, hσ⟩
      exact ⟨unnumber cnf σ, (hpush σ).2.trans hσ⟩
  · intro R _ ω
    have hinj : Set.InjOn cnf.varToGanak cnf.sampled :=
      (injOn_varToGanak hcnf).mono (Finset.coe_subset.mpr sampled_subset)
    rw [GanakInstance.projectedCount, optionalIndepSupport_arjunInstance dup hcnf,
      count_project_image hinj (sat_arjunInstance dup hcnf) fun σ => ⟨_, hpush σ⟩]
    refine count_congr (fun v hv b => ?_) fun _ _ => rfl
    rw [weight_arjunInstance dup hcnf hv]
    cases cnf.weights v with
    | none => rfl
    | some p =>
      show ω (dup (if b then p.1 else p.2)) = _
      rw [hdup]
      rfl

theorem denote_compileArjun {K : Klay} {σ : Nat → Bool} {truth : Int → Bool}
    (hK : K.Evaluates (Node.boolean σ) truth) (ganak : GanakInstance FCircuit → FCircuit)
    (cnf : SimplifiedCNF FCircuit) :
    (compileArjun K ganak cnf).denote σ = (cnf.multiplierWeight.node.denote σ &&
      (ganak (arjunInstance FCircuit.dup cnf)).node.denote σ) := by
  unfold compileArjun
  dsimp only
  split
  next hg =>
    have hden : (ganak (arjunInstance FCircuit.dup cnf)).node.denote σ = false :=
      Node.read_false _ hg
    rw [hden, Bool.and_false, denote_falseNode hK]
  next =>
    split
    next hmw =>
      have hden : cnf.multiplierWeight.node.denote σ = true := Node.read_true _ hmw
      rw [hden, Bool.true_and]
    next =>
      split
      next hg =>
        have hden : (ganak (arjunInstance FCircuit.dup cnf)).node.denote σ = true :=
          Node.read_true _ hg
        rw [hden, Bool.and_true]
      next =>
        rw [denote_and hK]
        simp

theorem countArjun_eq (ganak : GanakInstance FCount → FCount) (cnf : SimplifiedCNF FCount) :
    countArjun ganak cnf =
      cnf.multiplierWeight.val * (ganak (arjunInstance FCount.dup cnf)).val := by
  unfold countArjun
  dsimp only
  split
  next hz =>
    have hval : cnf.multiplierWeight.val = 0 := beq_iff_eq.mp hz
    rw [hval, zero_mul]
  next => rfl

/-- The Arjun branches: what is handed to Ganak counts what the simplified CNF counts, and the
result is Arjun's multiplier and Ganak's answer together. -/
theorem arjunBranch_correct {K : Klay} {σ : Nat → Bool} {truth : Int → Bool}
    (hK : K.Evaluates (Node.boolean σ) truth)
    {compiled : SimplifiedCNF FCircuit} (hcompiled : compiled.DuplicateFree)
    {counted : SimplifiedCNF FCount} (hcounted : counted.DuplicateFree)
    (ganak : GanakInstance FCircuit → FCircuit) {ganakCount : GanakInstance FCount → FCount}
    (hcount : (ganakCount (arjunInstance FCount.dup counted)).val =
      (arjunInstance FCount.dup counted).projectedCount FCount.val) :
    HandsOver compiled (arjunInstance FCircuit.dup compiled) ∧
    HandsOver counted (arjunInstance FCount.dup counted) ∧
    (compileArjun K ganak compiled).denote σ = (compiled.multiplierWeight.node.denote σ &&
      (ganak (arjunInstance FCircuit.dup compiled)).node.denote σ) ∧
    countArjun ganakCount counted =
      counted.multiplierWeight.val * counted.projectedCount FCount.val := by
  have hsame : (arjunInstance FCount.dup counted).projectedCount FCount.val =
      counted.projectedCount FCount.val :=
    (arjunInstance_handsOver (fun _ => rfl) hcounted).projectedCount FCount.val
  refine ⟨arjunInstance_handsOver (fun _ => rfl) hcompiled,
    arjunInstance_handsOver (fun _ => rfl) hcounted, denote_compileArjun hK ganak compiled, ?_⟩
  rw [countArjun_eq, hcount, hsame]

end

/-- Two sampling variables that are numbered against their order; the third occurs nowhere. -/
def reversedCnf {F : Type*} (weights : Nat → Option (F × F)) (multiplier : F) :
    SimplifiedCNF F where
  nVars := 3
  clauses := [[⟨2, false⟩, ⟨0, true⟩]]
  redClauses := [[⟨2, false⟩, ⟨0, true⟩, ⟨2, false⟩]]
  samplVarsSet := true
  samplVars := [2, 0, 1]
  optSamplVars := [2, 0]
  weights := weights
  multiplierWeight := multiplier

theorem reversedCnf_duplicateFree {F : Type*} (weights : Nat → Option (F × F)) (multiplier : F) :
    (reversedCnf weights multiplier).DuplicateFree := ⟨by simp [reversedCnf], by simp [reversedCnf]⟩

theorem reversed_correct :
    let circuitWeights := fun v : Nat => some (FGenCircuit.litField Klay.reference (v + 1),
      FGenCircuit.litField Klay.reference (-((v : Int) + 1)))
    let compiled := reversedCnf circuitWeights (FGenCircuit.litField Klay.reference 2)
    let counted := reversedCnf (fun v => some (⟨v⟩, ⟨1⟩)) ⟨2⟩
    let ganak := fun inst : GanakInstance FCircuit =>
      (SemiringProgram.eval (FGenCircuit.impl Klay.reference inst.weight?)
        [.lit 0 ⟨1, true⟩, .lit 1 ⟨1, false⟩, .lit 2 ⟨2, true⟩, .lit 3 ⟨2, false⟩,
          .mulAssign 1 3, .addAssign 2 3, .mulAssign 0 2, .addAssign 0 1] 0).getD
        (FGenCircuit.zero Klay.reference)
    let ganakCount := fun inst : GanakInstance FCount => ⟨inst.projectedCount FCount.val⟩
    HandsOver.{0, 0} compiled (arjunInstance FCircuit.dup compiled) ∧
    HandsOver.{0, 0} counted (arjunInstance FCount.dup counted) ∧
    (compileArjun Klay.reference ganak compiled).denote (Klay.leafHolds fun _ => true) =
      (compiled.multiplierWeight.node.denote (Klay.leafHolds fun _ => true) &&
        (ganak (arjunInstance FCircuit.dup compiled)).node.denote (Klay.leafHolds fun _ => true)) ∧
    countArjun ganakCount counted =
      counted.multiplierWeight.val * counted.projectedCount FCount.val := by
  intro circuitWeights compiled counted ganak ganakCount
  exact arjunBranch_correct (Klay.reference_denotes fun _ => true) (reversedCnf_duplicateFree _ _)
    (reversedCnf_duplicateFree _ _) ganak rfl

end Kompyle
