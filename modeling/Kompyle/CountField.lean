import Kompyle.SemiringProgram
import Mathlib.Algebra.Ring.Int.Defs

namespace Kompyle

structure FCount where
  val : Int
  deriving DecidableEq, Repr

namespace FCount

def dup (x : FCount) : FCount := ⟨x.val⟩

def add (x o : FCount) : FCount := ⟨x.val + o.val⟩

/-- `operator+=`. -/
def addAssign (x o : FCount) : FCount := ⟨x.val + o.val⟩

/-- `operator*=`. -/
def mulAssign (x o : FCount) : FCount := ⟨x.val * o.val⟩

/-- `operator=`. -/
def assign (_ o : FCount) : FCount := ⟨o.val⟩

/-- `operator-=`. -/
def subAssign (x o : FCount) : FCount := ⟨x.val - o.val⟩

/-- `operator/=` by a value that is not zero: boost rounds towards zero. -/
def divAssign (x o : FCount) : FCount := ⟨x.val.tdiv o.val⟩

/-- `operator==`. -/
def eq (x o : FCount) : Bool := x.val == o.val

def isZero (x : FCount) : Bool := x.val == 0

def isOne (x : FCount) : Bool := x.val == 1

def setZero (_ : FCount) : FCount := ⟨0⟩

def setOne (_ : FCount) : FCount := ⟨1⟩

end FCount

namespace FGenCount

def zero : FCount := ⟨0⟩

def one : FCount := ⟨1⟩

def largerThan (a b : FCount) : Bool := a.val > b.val

def impl {L : Type*} (lit : L → Option FCount) : SemiringProgram.Impl L FCount where
  zero := zero
  one := one
  lit := lit
  dup := FCount.dup
  add := FCount.add
  addAssign := FCount.addAssign
  mulAssign := FCount.mulAssign
  assign := FCount.assign
  setZero := FCount.setZero
  setOne := FCount.setOne

theorem impl_plain {L : Type*} {lit : L → Option FCount} : (impl lit).Plain :=
  ⟨fun _ => rfl, fun _ _ => rfl, fun _ _ => rfl, fun _ => rfl, fun _ => rfl⟩

end FGenCount

end Kompyle
