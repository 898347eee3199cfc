import Reversible.Gate.Basic

namespace Reversible

/-- Why an operation cannot be carried out on the arguments it was given. -/
inductive Fault where
  | bitOutOfRange (bit width : Nat)
  | tooWideForWord (width : Nat)
  | targetAmongControls (target : Nat)
  | equalTargets
  | targetsAmongControls (first second : Nat)
  | alreadyTarget (line : Nat)
  | controlsMerged
  | targetMergedWithControl (mapped : Gate)
  | gateOutsideCircuit (gate : Gate) (lines : Nat)
  | insertedLineCount (inserted lines : Nat)
  | replacementNotExpanded (lines : Nat)
  | inputNameCount (lines : Nat)
  | outputNameCount (lines : Nat)
  | constantCount (lines : Nat)
  | garbageFlagCount (lines : Nat)
  | noSuchLine (line : Nat)
  | mergedIntoItself
  | lineInUse (line : Nat)
  | gateRange (start stop : Nat)
  | filterNotIncreasing (filter : List Nat)
  | filterOutsideCircuit
  | lineOutsideFilter (gate : Gate) (line : Nat)
  | windowOfOtherLineCount
  | replacementLineCount (given expected : Nat)
  | inputWidth (width lines : Nat)
  | freeInputWidth
  | tooManyInputs (inputs : Nat)
  | rowInputWidth
  | rowOutputWidth
  | freeOutputsExhausted
  | incompletePermutation
  | notAPermutation
  /-- The gates of a row do not lead to its other end. -/
  | rowMissesGoal
  /-- A row that has been dealt with is not a fixed point. -/
  | rowNotFixed
  | zeroWindowLength
  | zeroWindowOffset
  | tooManyControls
  /-- A position lies outside of the list it indexes. -/
  | outOfBounds
  /-- A number does not fit a 64-bit word. -/
  | overflow
deriving DecidableEq

def Fault.message : Fault → String
  | bitOutOfRange bit width => s!"Bit {bit} out of range (width {width})"
  | tooWideForWord width => s!"Bit set of width {width} does not fit into u64"
  | targetAmongControls target => s!"Target line {target} must not be a control line"
  | equalTargets => "Fredkin targets must be distinct"
  | targetsAmongControls a b => s!"Fredkin targets {a} and {b} must not be control lines"
  | alreadyTarget line => s!"Line {line} is already a target"
  | controlsMerged => "Line mapping merged control lines"
  | targetMergedWithControl mapped => s!"Line mapping produced a target that is also a control: {mapped.text}"
  | gateOutsideCircuit gate lines =>
    s!"Gate {gate.text} references a line outside of a circuit with {lines} lines"
  | insertedLineCount inserted lines =>
    s!"Cannot insert a circuit with {inserted} lines into one with {lines} lines"
  | replacementNotExpanded lines => s!"Replacement must be expanded to {lines} lines"
  | inputNameCount lines => s!"Expected {lines} input names"
  | outputNameCount lines => s!"Expected {lines} output names"
  | constantCount lines => s!"Expected {lines} constants"
  | garbageFlagCount lines => s!"Expected {lines} garbage flags"
  | noSuchLine line => s!"Line {line} does not exist"
  | mergedIntoItself => "Cannot merge a line into itself"
  | lineInUse line => s!"Line {line} is still in use"
  | gateRange start stop => s!"Invalid gate range {start}..{stop}"
  | filterNotIncreasing filter => s!"Window filter must be strictly increasing: {bracketed filter}"
  | filterOutsideCircuit => "Window filter references a line outside of the circuit"
  | lineOutsideFilter gate line => s!"Gate {gate.text} touches line {line} outside of the window filter"
  | windowOfOtherLineCount => "Window was taken from a circuit with different lines"
  | replacementLineCount given expected => s!"Replacement has {given} lines but the window has {expected}"
  | inputWidth width lines => s!"Input width {width} does not match {lines} lines"
  | freeInputWidth => "Expected one bit per free input"
  | tooManyInputs inputs => s!"Cannot enumerate {inputs} inputs"
  | rowInputWidth => "Input has wrong width"
  | rowOutputWidth => "Output has wrong width"
  | freeOutputsExhausted => "permutation has as many free outputs as free inputs"
  | incompletePermutation => "Permutation must cover all assignments"
  | notAPermutation => "f is a permutation"
  | rowMissesGoal | rowNotFixed => "assertion `left == right` failed"
  | zeroWindowLength => "Window length must be positive"
  | zeroWindowOffset => "Window offset must be positive"
  | tooManyControls => "Too many controls to enumerate factors"
  | outOfBounds => "Position out of bounds"
  | overflow => "Number out of range"

/-- Stops with `fault` unless `condition` holds. -/
def require (condition : Prop) [Decidable condition] (fault : Fault) : Except Fault Unit :=
  if condition then .ok () else .error fault

@[simp] theorem require_eq_ok {condition : Prop} [Decidable condition] {fault : Fault} :
    require condition fault = .ok () ↔ condition := by
  unfold require
  split <;> simp_all

@[simp] theorem require_eq_error {condition : Prop} [Decidable condition] {fault found : Fault} :
    require condition fault = .error found ↔ ¬condition ∧ fault = found := by
  unfold require
  split <;> simp_all

/-- The element at a position that may lie outside of the list. -/
def elementAt {α : Type} (xs : List α) (i : Nat) : Except Fault α :=
  match xs[i]? with
  | some x => .ok x
  | none => .error .outOfBounds

def entryAt {α : Type} (xs : Array α) (i : Nat) : Except Fault α :=
  match xs[i]? with
  | some x => .ok x
  | none => .error .outOfBounds

/-- The elements from position `start` up to, but not including, position `stop`. -/
def elementsIn {α : Type} (xs : List α) (start stop : Nat) : Except Fault (List α) := do
  require (start ≤ stop ∧ stop ≤ xs.length) .outOfBounds
  return (xs.drop start).take (stop - start)

/-- How many assignments `n` bits have, counted in a 64-bit word. -/
def assignmentCount (n : Nat) : Except Fault Nat := do
  require (n < 64) .overflow
  return 1 <<< n

end Reversible
