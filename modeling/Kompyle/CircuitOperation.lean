import Kompyle.CallTreeScope
import Kompyle.KlayCircuit

namespace Kompyle

open WeightedCount

def d4LitToDimacs (l : Lit) : Int := if l.sign then -(l.var : Int) else l.var

/-- The mask has an entry for the variable, and it is true. -/
def isMasked (isGateVar : List Bool) (v : Nat) : Bool := isGateVar[v]? == some true

theorem isMasked_eq_getD (isGateVar : List Bool) (v : Nat) :
    isMasked isGateVar v = isGateVar.getD v false := by
  rw [isMasked, List.getD_eq_getElem?_getD]
  cases isGateVar[v]? with
  | none => rfl
  | some b => cases b <;> rfl

theorem isMasked_eq (isGateVar : List Bool) (v : Nat) :
    isMasked isGateVar v = (!isGateVar.isEmpty && isGateVar.getD v false) := by
  rw [isMasked_eq_getD]
  cases isGateVar with
  | nil => rfl
  | cons => rfl

section

variable (K : Klay) (isGateVar : List Bool)

def makeTautology (v : Nat) : Node := K.orNode [K.literalNode v, K.literalNode (-(v : Int))]

def makeLiteralNode (l : Lit) : Node := K.literalNode (d4LitToDimacs l)

/-- An index past the end of the mask, which the source does not define, reads as unmasked. -/
def wrapBranch (b : DataBranch Node) : Node :=
  let lits := b.unitLits.map fun l =>
    if !isGateVar.isEmpty && isGateVar.getD l.var false then K.trueNode
    else makeLiteralNode K l
  let tauts := (b.freeVars.filter fun v =>
    !(!isGateVar.isEmpty && isGateVar.getD v false)).map (makeTautology K)
  let parts := lits ++ [b.d] ++ tauts
  if parts.isEmpty then K.trueNode else K.andNode parts

/-- KlayCircuitOperation, built with the mask `isGateVar` (empty for none). -/
def klayCircuitOperation : Operation Node where
  createTop := K.trueNode
  createBottom := K.falseNode
  manageBottom := K.falseNode
  manageTop _ := K.trueNode
  manageBranch e := wrapBranch K isGateVar e
  manageDeterministOr elts :=
    match elts with
    | [e] => wrapBranch K isGateVar e
    | elts => K.orNode (elts.map (wrapBranch K isGateVar))
  manageDecomposableAnd elts :=
    match elts.filter fun n => !n.isTrue with
    | [] => K.trueNode
    | [part] => part
    | parts => K.andNode parts

theorem wrapBranch_eq (b : DataBranch Node) :
    wrapBranch K isGateVar b = K.andNode
      (b.unitLits.map (fun l =>
        if isMasked isGateVar l.var then K.trueNode else makeLiteralNode K l) ++ [b.d] ++
      (b.freeVars.filter fun v => !isMasked isGateVar v).map (makeTautology K)) := by
  simp only [wrapBranch, ← isMasked_eq]
  simp

end

/-- The weight of a variable's literal, where the literals of masked variables weigh one. -/
def maskWeight {R : Type*} [CommSemiring R] (isGateVar : List Bool) (W : Int → R)
    (v : Nat) (b : Bool) : R :=
  if isMasked isGateVar v then 1 else W (if b then v else -(v : Int))

section

variable {K : Klay} {isGateVar : List Bool} {R : Type*} [CommSemiring R] {w : Nat → R}
  {W : Int → R}

theorem value_makeTautology (hK : K.Evaluates (Node.sumProduct w) W) (v : Nat) :
    (makeTautology K v).value w = W v + W (-(v : Int)) := by
  simp [makeTautology, value_or hK, value_literal hK]

theorem value_maskedLit (hK : K.Evaluates (Node.sumProduct w) W) (l : Lit) :
    (if isMasked isGateVar l.var then K.trueNode else makeLiteralNode K l).value w =
      maskWeight isGateVar W l.var (!l.sign) := by
  unfold maskWeight
  split
  next => exact value_trueNode hK
  next =>
    rw [makeLiteralNode, value_literal hK, d4LitToDimacs]
    cases l.sign <;> simp

theorem value_wrapBranch (hK : K.Evaluates (Node.sumProduct w) W) (b : DataBranch Node) :
    (wrapBranch K isGateVar b).value w =
      (b.unitLits.map fun l => maskWeight isGateVar W l.var (!l.sign)).prod * b.d.value w *
        ((b.freeVars.filter fun v => !isMasked isGateVar v).map fun v : Nat =>
          W v + W (-(v : Int))).prod := by
  rw [wrapBranch_eq, value_and hK]
  simp only [List.map_append, List.prod_append, List.map_map, List.map_cons, List.map_nil,
    List.prod_cons, List.prod_nil, mul_one, Function.comp_def]
  simp only [value_maskedLit hK, value_makeTautology hK]

theorem value_manageDeterministOr (hK : K.Evaluates (Node.sumProduct w) W)
    (elts : List (DataBranch Node)) :
    ((klayCircuitOperation K isGateVar).manageDeterministOr elts).value w =
      (elts.map fun e => (wrapBranch K isGateVar e).value w).sum := by
  unfold klayCircuitOperation
  dsimp only
  split
  next => simp
  next => rw [value_or hK, List.map_map]; rfl

theorem value_manageDecomposableAnd (hK : K.Evaluates (Node.sumProduct w) W)
    (elts : List Node) :
    ((klayCircuitOperation K isGateVar).manageDecomposableAnd elts).value w =
      (elts.map fun n => n.value w).prod := by
  have hfilter : (elts.map fun n => n.value w).prod =
      ((elts.filter fun n => !n.isTrue).map fun n => n.value w).prod := by
    induction elts with
    | nil => rfl
    | cons n ns ih =>
      cases hn : n.isTrue with
      | true =>
        have hone : n.value w = 1 := Node.read_true _ hn
        simp [hn, hone, ih]
      | false => simp [hn, ih]
  rw [hfilter]
  unfold klayCircuitOperation
  dsimp only
  split
  next h => simp [h, value_trueNode hK]
  next h => simp [h]
  next => exact value_and hK _

end

end Kompyle
