import Reversible.Simulation

namespace Reversible

/-- Where a line takes its value from when the named inputs have the bits of a number. -/
inductive Source where
  | constant (value : Bool)
  | input (bit : Nat)

def Source.value (x : Nat) : Source → Bool
  | constant value => value
  | input bit => x.testBit bit

/-- A free line takes the bit of its name. Of several bits with the name it takes the last one. -/
def Wire.source (names : List String) (w : Wire) : Source :=
  match w.constant with
  | some value => .constant value
  | none => .input (names.length - 1 - names.reverse.idxOf w.input)

namespace Circuit

/-- The names of the free inputs, in the order of their code points. -/
def inputNames (c : Circuit) : List String :=
  ((c.wires.filter (·.constant.isNone)).map (·.input)).mergeSort (· ≤ ·)

/-- The outputs that are read, each name with its line. -/
def observables (c : Circuit) : List (String × Nat) :=
  (c.wires.zipIdx.filter fun (w, _) => !w.garbage).map fun (w, line) => (w.output, line)

/-- The line of an output name. Of several lines with the name the last one counts. -/
def outputLine? (c : Circuit) (name : String) : Option Nat := c.observables.reverse.lookup name

/-- The lines of each output name in both circuits, unless a name is missing in one of them. -/
def pairedOutputs? (c d : Circuit) : Option (List (Nat × Nat)) := do
  guard (d.observables.all fun (name, _) => (c.outputLine? name).isSome)
  c.observables.mapM fun (name, _) => return (← c.outputLine? name, ← d.outputLine? name)

/-- What a circuit answers when the named inputs have the bits of `x`. -/
def answer (simulator : Simulator) (c : Circuit) (sources : List Source) (x : Nat) : Except Fault Bits :=
  simulator c (Bits.ofBools (sources.map (·.value x)))

/-- Whether two answers have the same values at the paired positions. -/
def sameOutputs (outputs : List (Nat × Nat)) (left right : Bits) : Except Fault Bool :=
  outputs.allM fun (i, j) => return (← left.get i) == (← right.get j)

/-- Whether two circuits compute the same named outputs from the same named inputs, tried on all inputs.
The order and the number of lines, constants and garbage play no part. -/
def equivalent (simulator : Simulator) (c d : Circuit) : Except Fault Bool := do
  let names := c.inputNames
  if names ≠ d.inputNames then return false
  require (names.length ≤ maxEnumeratedInputs) (.tooManyInputs names.length)
  match c.pairedOutputs? d with
  | none => return false
  | some outputs =>
    let sources := c.wires.map (·.source names)
    let otherSources := d.wires.map (·.source names)
    allFrom
      (fun x => do sameOutputs outputs (← c.answer simulator sources x) (← d.answer simulator otherSources x))
      0 (1 <<< names.length)

end Circuit

end Reversible
