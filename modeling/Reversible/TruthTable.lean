import Reversible.Bits

namespace Reversible

/-- One entry per output; `none` leaves the output open. -/
abbrev Cube := List (Option Bool)

def Cube.text (cube : Cube) : String :=
  String.ofList (cube.map fun
    | some true => '1'
    | some false => '0'
    | none => '-')

/-- The outputs asked for on some of the inputs. Rows are stored latest input first, so rows that come in
ascending order are each added at the head. -/
structure TruthTable where
  inputs : Nat
  outputs : Nat
  descending : List (Bits × Cube)
deriving DecidableEq

namespace TruthTable

def empty (inputs outputs : Nat) : TruthTable := ⟨inputs, outputs, []⟩

/-- The rows in ascending order of their inputs. -/
def rows (t : TruthTable) : List (Bits × Cube) := t.descending.reverse

def size (t : TruthTable) : Nat := t.descending.length

/-- Puts a row at its place in a descending list. A row for the same input is replaced. -/
def insertRow (input : Bits) (cube : Cube) : List (Bits × Cube) → List (Bits × Cube)
  | [] => [(input, cube)]
  | (other, otherCube) :: rest =>
    match input.compare other with
    | .gt => (input, cube) :: (other, otherCube) :: rest
    | .eq => (input, cube) :: rest
    | .lt => (other, otherCube) :: insertRow input cube rest

def add (t : TruthTable) (input : Bits) (cube : Cube) : Except Fault TruthTable := do
  require (input.width = t.inputs) .rowInputWidth
  require (cube.length = t.outputs) .rowOutputWidth
  return { t with descending := insertRow input cube t.descending }

def clear (t : TruthTable) : TruthTable := { t with descending := [] }

def get? (t : TruthTable) (input : Bits) : Option Cube := t.descending.lookup input

/-- Whether every input has a row and no row leaves an output open. As no input has two rows, their
number decides the first. -/
def isFullySpecified (t : TruthTable) : Bool :=
  decide (t.inputs < 64) && t.size == 1 <<< t.inputs && t.descending.all fun (_, cube) => cube.all (·.isSome)

def openOutputs (t : TruthTable) : Nat :=
  t.descending.foldr (fun (_, cube) count => cube.countP (·.isNone) + count) 0

def text (t : TruthTable) : String :=
  String.join (t.rows.map fun (input, cube) => s!"{input.text} -> {cube.text}\n")

end TruthTable

end Reversible
