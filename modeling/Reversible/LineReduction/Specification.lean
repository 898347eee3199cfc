import Reversible.Circuit.Window
import Reversible.Simulation

namespace Reversible

/-- What a line of a window has to hold at the end of the window. -/
inductive LineRole where
  | constant (value : Bool)
  /-- The value it has now, as it is used later or is an output. -/
  | stillUsed
  | dontCare
deriving DecidableEq

namespace LineRole

/-- The entry of a row for a line that now holds `value`; a line that may hold anything has no entry. -/
def entry (value : Bool) : LineRole → Option (Option Bool)
  | constant fixed => some (some fixed)
  | stillUsed => some (some value)
  | dontCare => none

/-- The lines of a window that its table has outputs for. -/
def order (roles : List LineRole) : List Nat :=
  (List.range roles.length).filter fun i => roles[i]? != some dontCare

def openLines (roles : List LineRole) : Nat := roles.count dontCare

end LineRole

namespace Circuit

/-- The roles of the lines of a window when `line` has to end up with `constant`. -/
def lineRoles (c : Circuit) (w : Window) (line : Nat) (constant : Bool) : List LineRole :=
  w.filter.map fun l =>
    if l = line then .constant constant
    else if !c.garbage l || (c.gates.drop w.stop).any (·.touches l) then .stillUsed
    else .dontCare

/-- The number whose bit `i` is entry `i`. -/
def numberOf (bits : List Bool) : Nat := bits.foldr (fun bit n => bit.toNat + 2 * n) 0

/-- The bits of a state at `positions`, as a number that must fit a word. -/
def projectState (state : Bits) (positions : List Nat) : Except Fault Nat := do
  let bits ← positions.mapM state.get
  require (positions.length ≤ 64) .overflow
  return numberOf bits

/-- The assignments that the constants allow at the start of a window, as numbers. -/
def initialStates (w : Circuit) : Except Fault NatSet := do
  let free := w.freeCount
  let count ← assignmentCount free
  foldFrom
    (fun states x => do
      let state ← (← w.fullInput (Bits.ofWord free x.toUInt64)).toWord
      return states.insert state.toNat)
    0 count .empty

/-- The states of the lines at `positions` that `before` leads to from the assignments that the constants allow. -/
def finalStates (simulator : Simulator) (before : Circuit) (positions : List Nat) : Except Fault NatSet := do
  let free := before.freeCount
  let count ← assignmentCount free
  foldFrom
    (fun states x => do
      let state ← before.simulateFree simulator (Bits.ofWord free x.toUInt64)
      return states.insert (← projectState state positions))
    0 count .empty

/-- What one assignment of the window asks for: the entries of its lines, in the order of the lines. -/
def rowCube (roles : List LineRole) (output : Bits) : Cube :=
  (roles.zipWith (fun role value => role.entry value) output.toBools).filterMap id

/-- How many rows with the same outputs `openLines` lines can tell apart. The lines are counted in 32 bits. -/
def rowCapacity (openLines : Nat) : Nat :=
  let shift := openLines % UInt32.size
  if shift < 64 then 1 <<< shift else UInt64.size - 1

/-- Adds a row for each input, unless more rows ask for the same outputs than the open lines can tell apart.
`occurrences` counts, for each cube, the rows so far that ask for it. -/
def addRows (simulator : Simulator) (w : Circuit) (roles : List LineRole) (occurrences : Cube → Nat)
    (table : TruthTable) : List Nat → Except Fault (Option TruthTable)
  | [] => return some table
  | x :: rest => do
    let input := Bits.ofWord w.lines x.toUInt64
    let cube := rowCube roles (← simulator w input)
    let count := occurrences cube
    if rowCapacity (LineRole.openLines roles) ≤ count then return none
    addRows simulator w roles (fun other => if other = cube then count + 1 else occurrences other)
      (← table.add input cube) rest

/-- The table of what a window has to do on `inputs`, if its rows can be told apart. -/
def specification (simulator : Simulator) (w : Circuit) (inputs : NatSet) (roles : List LineRole) :
    Except Fault (Option TruthTable) :=
  addRows simulator w roles (fun _ => 0) (.empty w.lines (w.lines - LineRole.openLines roles)) inputs.toList

end Circuit

end Reversible
