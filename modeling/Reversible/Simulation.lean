import Reversible.Circuit.Basic
import Reversible.Enumeration
import Reversible.TruthTable

namespace Reversible

/-- A way to compute what a circuit makes of an assignment to all of its lines. -/
abbrev Simulator := Circuit → Bits → Except Fault Bits

/-- The action of one gate. Controls are looked at in ascending order up to the first zero. -/
def Gate.apply (state : Bits) (g : Gate) : Except Fault Bits := do
  if ← state.allSet g.controls.toList then
    match g with
    | .toffoli _ t => state.flip t
    | .fredkin _ a b => state.swap a b
  else return state

/-- Gate by gate. -/
def simulate : Simulator := fun c input => do
  require (input.width = c.lines) (.inputWidth input.width c.lines)
  c.gates.foldlM Gate.apply input

namespace Simulator

/-- Answers every input with itself. -/
def identity : Simulator := fun _ input => pure input

/-- Inverts what another simulator answers. -/
def inverted (simulator : Simulator) : Simulator := fun c input => do
  return Bits.ofBools ((← simulator c input).toBools.map (!·))

end Simulator

/-- The largest number of inputs whose assignments are enumerated. -/
def maxEnumeratedInputs : Nat := 24

namespace Circuit

/-- Fills free lines from `free`, in ascending order, and the other lines with their constants. -/
def fillLines : List Wire → List Bool → List Bool
  | [], _ => []
  | w :: wires, free =>
    match w.constant, free with
    | some value, _ => value :: fillLines wires free
    | none, value :: rest => value :: fillLines wires rest
    | none, [] => false :: fillLines wires []

/-- The assignment to all lines, given one bit per free line. -/
def fullInput (c : Circuit) (free : Bits) : Except Fault Bits := do
  require (free.width = c.freeCount) .freeInputWidth
  return Bits.ofBools (fillLines c.wires free.toBools)

/-- Simulation with the constants wired in. -/
def simulateFree (simulator : Simulator) (c : Circuit) (free : Bits) : Except Fault Bits := do
  simulator c (← c.fullInput free)

/-- Adds the row for the assignment with the bits of `x`. -/
def addSimulated (simulator : Simulator) (c : Circuit) (table : TruthTable) (x : Nat) :
    Except Fault TruthTable := do
  let input := Bits.ofWord c.lines x.toUInt64
  table.add input ((← simulator c input).toBools.map some)

/-- The table of a circuit over all assignments to its lines, constants not wired in. -/
def truthTable (simulator : Simulator) (c : Circuit) : Except Fault TruthTable := do
  require (c.lines ≤ maxEnumeratedInputs) (.tooManyInputs c.lines)
  foldFrom (addSimulated simulator c) 0 (1 <<< c.lines) (.empty c.lines c.lines)

end Circuit

end Reversible
