import Reversible.Gate.Edit

namespace Reversible

/-- The positions of the ones of a 64-bit number. -/
def onesOf (x : Nat) : List Nat := (List.range 64).filter x.testBit

/-- The positions where `y` has a one and `x` has none. -/
def onesMissing (x y : Nat) : List Nat := (List.range 64).filter fun i => y.testBit i && !x.testBit i

/-- The number of positions where two 64-bit numbers differ. -/
def hammingDistance (x y : Nat) : Nat := ((List.range 64).filter fun i => x.testBit i != y.testBit i).length

def invertBit (x line : Nat) : Nat := x ^^^ 1 <<< line

def setBit (x line : Nat) : Nat := x ||| 1 <<< line

def clearBit (x line : Nat) : Nat := x &&& invertBit x line

namespace Gate

/-- The action of a gate on an assignment given as a number, bit `i` for line `i`. -/
def applyTo (x : Nat) : Gate → Nat
  | toffoli cs t => if cs.toList.all x.testBit then invertBit x t else x
  | fredkin cs a b =>
    if cs.toList.all x.testBit && x.testBit a != x.testBit b then invertBit (invertBit x a) b else x

end Gate

/-- Gates that set bits of `x` one after the other, each under all ones that are set by then. -/
def raise (x : Nat) : List Nat → Except Fault (List Gate)
  | [] => return []
  | t :: rest => do
    let g ← Gate.controlledNot (onesOf x) t
    return g :: (← raise (setBit x t) rest)

/-- Gates that take assignment `x` to `y`: first the missing ones are set, then those that `y` does not
have are cleared under the ones of `y`. Every gate needs the ones of `x` or those of `y`, so it fixes all
assignments below both. -/
def turn (x y : Nat) : Except Fault (List Gate) := do
  let raising ← raise x (onesMissing x y)
  let raised := (onesMissing x y).foldl setBit x
  let clearing ← (onesMissing y raised).mapM (Gate.controlledNot (onesOf y))
  require ((onesMissing y raised).foldl clearBit raised = y) .rowMissesGoal
  return raising ++ clearing

end Reversible
