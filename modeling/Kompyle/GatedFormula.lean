namespace Kompyle

namespace GatedFormula

inductive GateKind
  | kAnd | kOr | kIdentity | kTarget
  deriving DecidableEq, Repr

structure Gate where
  kind : GateKind
  output : String
  inputs : List String
  deriving DecidableEq, Repr

end GatedFormula

structure GatedFormula where
  gates_ : List GatedFormula.Gate
  deriving DecidableEq, Repr

namespace GatedFormula

def empty : GatedFormula := ⟨[]⟩

def addInput (gf : GatedFormula) (name : String) : GatedFormula :=
  ⟨gf.gates_ ++ [⟨.kIdentity, name, [name]⟩]⟩

def addAnd (gf : GatedFormula) (output : String) (inputs : List String) : GatedFormula :=
  ⟨gf.gates_ ++ [⟨.kAnd, output, inputs⟩]⟩

def addOr (gf : GatedFormula) (output : String) (inputs : List String) : GatedFormula :=
  ⟨gf.gates_ ++ [⟨.kOr, output, inputs⟩]⟩

def addTarget (gf : GatedFormula) (token : String) : GatedFormula :=
  ⟨gf.gates_ ++ [⟨.kTarget, token, []⟩]⟩

/-- The tokens of a gate, in the order in which they are resolved. A target has no inputs, and
none of them would be read. -/
def Gate.tokens (g : Gate) : List String :=
  match g.kind with
  | .kTarget => [g.output]
  | _ => g.output :: g.inputs

def tokens (gf : GatedFormula) : List String := gf.gates_.flatMap Gate.tokens

end GatedFormula

end Kompyle
