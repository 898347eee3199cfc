import Reversible.Enumeration
import Reversible.Synthesis.Basic

namespace Reversible

namespace Embedding

/-- The number whose bit `lines[i]` is bit `i` of `t`, besides the ones of `base`. -/
def scatter (base t : Nat) : List Nat → Nat
  | [] => base
  | line :: rest => scatter (base ||| ((t % 2) <<< line)) (t / 2) rest

/-- The lines that a row fixes. -/
def fixedLines (order : List Nat) (cube : Cube) : List Nat :=
  (order.zip cube).filterMap fun (line, bit) => bit.map fun _ => line

/-- The number with the ones that a row fixes. -/
def fixedValue (order : List Nat) (cube : Cube) : Nat :=
  (order.zip cube).foldl (fun value (line, bit) => if bit = some true then value ||| 1 <<< line else value) 0

/-- Whether assignment `y` has the outputs that a row fixes. -/
def agrees (order : List Nat) (cube : Cube) (y : Nat) : Bool :=
  (order.zip cube).all fun (line, bit) => bit.all (y.testBit line == ·)

/-- A partial permutation: the output of each input that has one, and which outputs are taken. -/
structure Partial where
  output : Array (Option Nat)
  taken : Array Bool

namespace Partial

def empty (size : Nat) : Partial := ⟨Array.replicate size none, Array.replicate size false⟩

def isTaken (p : Partial) (y : Nat) : Bool := p.taken.getD y true

def assign (p : Partial) (x y : Nat) : Partial :=
  ⟨p.output.setIfInBounds x (some y), p.taken.setIfInBounds y true⟩

/-- The output for a row: its own input where the row allows that, else the first assignment, in the order
of the open bits, that is not taken. -/
def choose (p : Partial) (lines : Nat) (order : List Nat) (x : Nat) (cube : Cube) : Option Nat :=
  if agrees order cube x && !p.isTaken x then some x
  else
    let openLines := (List.range lines).filter fun line => !(fixedLines order cube).contains line
    let assignment (t : Nat) : Nat := scatter (fixedValue order cube) t openLines
    (firstFrom (fun t => !p.isTaken (assignment t)) 0 (1 <<< openLines.length)).map assignment

/-- Gives an input without an output itself as output, if that is not taken. -/
def keepInPlace (p : Partial) (x : Nat) : Partial :=
  if (p.output.getD x none).isNone && !p.isTaken x then p.assign x x else p

/-- Gives the inputs without an output the outputs of `free`, in ascending order. -/
def fill : List (Option Nat) → List Nat → Except Fault (List Nat)
  | [], _ => return []
  | some y :: rest, free => return y :: (← fill rest free)
  | none :: rest, y :: free => return y :: (← fill rest free)
  | none :: _, [] => throw .freeOutputsExhausted

/-- The permutation with these outputs, those of the other inputs filled in. -/
def complete (p : Partial) : Except Fault (Array Nat) := do
  let kept := (List.range p.output.size).foldl keepInPlace p
  let free := (List.range kept.output.size).filter fun y => !kept.isTaken y
  return (← fill kept.output.toList free).toArray

end Partial

/-- Gives each row its output, in the order of the table. -/
def assignRows (lines : Nat) (order : List Nat) (p : Partial) :
    List (Bits × Cube) → Except Fault (Except SynthesisError Partial)
  | [] => return .ok p
  | (input, cube) :: rest => do
    let x := (← input.toWord).toNat
    match p.choose lines order x cube with
    | some y => assignRows lines order (p.assign x y) rest
    | none => return .error (.ambiguous x)

end Embedding

/-- An order names pairwise distinct lines, one for each output of the table. -/
def TruthTable.ValidOrder (t : TruthTable) (order : List Nat) : Prop :=
  order.length = t.outputs ∧ (∀ line ∈ order, line < t.inputs) ∧ order.Nodup

instance (t : TruthTable) (order : List Nat) : Decidable (t.ValidOrder order) := by
  unfold TruthTable.ValidOrder
  infer_instance

/-- Completes a table to a permutation of all assignments to its input lines, output `k` of the table on
line `order[k]`. There is taken to be memory for all of them: none is ever short of room for its entry, as it would
be from 59 lines on. -/
def TruthTable.embed (t : TruthTable) (order : List Nat) (maxLines : Nat) :
    Except Fault (Except SynthesisError (Array Nat)) := do
  if maxLines < t.inputs then return .error (.tooManyLines t.inputs maxLines)
  if ¬t.ValidOrder order then return .error (.orderMismatch order t.inputs t.outputs)
  let size ← assignmentCount t.inputs
  match ← Embedding.assignRows t.inputs order (.empty size) t.rows with
  | .ok p => return .ok (← p.complete)
  | .error e => return .error e

end Reversible
