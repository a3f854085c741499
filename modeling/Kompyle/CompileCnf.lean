import Kompyle.CircuitValue
import Kompyle.KlayReference

namespace Kompyle

open WeightedCount

def literalWeight {R : Type*} (W : Int → R) (v : Nat) (b : Bool) : R :=
  W (if b then v else -(v : Int))

/-- The circuit CompileFromCnfUsingD4v2 returns for a run evaluates to the weighted count of
the assignments of the run's scope that satisfy it. -/
theorem klayCircuit_weightedCount {K : Klay} {R : Type*} [CommSemiring R] {w : Nat → R}
    {W : Int → R} (hK : K.Evaluates (Node.sumProduct w) W) {t : CallTree} {s : Finset Nat}
    (hs : t.HasScope s) (hdet : t.Deterministic) (htop : t.PlainTops) :
    (t.run (klayCircuitOperation K [])).value w = count (literalWeight W) s t.sat := by
  have hall : ∀ P : DataBranch CallTree → Prop, (∀ e, P e) → t.EachBranch P :=
    fun P hP => CallTree.live_mono (fun _ _ => trivial) (fun e _ => hP e) (fun _ _ => trivial) htop
  have hU : ∀ v ∈ (∅ : Finset Nat), isMasked [] v = true := by simp
  have h := value_run hK hU hs hdet htop (hall _ fun e l _ => by simp)
    (hall _ fun e v _ hm => by simp [isMasked] at hm)
  have hw : maskWeight [] W = literalWeight W := by
    funext v b
    simp [maskWeight, isMasked, literalWeight]
  rwa [hw, Finset.sdiff_empty] at h

theorem clauseRun_weightedCount :
    (CallTree.clauseRun.run (klayCircuitOperation Klay.reference [])).value id =
      count (literalWeight Klay.literalCode) {1, 2} CallTree.clauseRun.sat ∧
    count (literalWeight Klay.literalCode) {1, 2} CallTree.clauseRun.sat = 30 :=
  ⟨klayCircuit_weightedCount (Klay.reference_evaluates (sumProduct_absorbs id))
    CallTree.clauseRun_hasScope CallTree.clauseRun_deterministic CallTree.clauseRun_plainTops,
    by decide⟩

end Kompyle
