import Reversible.Circuit.Basic

namespace Reversible

/-- A copied range of gates over some of the lines of a circuit. Line `i` of the copy is line `filter[i]`
of the circuit it was taken from, which has `parentLines` lines. -/
structure Window where
  circuit : Circuit
  offset : Nat
  filter : List Nat
  parentLines : Nat
deriving DecidableEq

namespace Window

def lines (w : Window) : Nat := w.circuit.lines

def size (w : Window) : Nat := w.circuit.size

/-- The position after the last gate of the window. -/
def stop (w : Window) : Nat := w.offset + w.size

/-- The number that a line of the circuit has inside a window over `filter`. -/
def localLine (lines : Nat) (filter : List Nat) (g : Gate) (line : Nat) : Except Fault Nat := do
  require (line < lines) .outOfBounds
  match filter.idxOf? line with
  | some i => return i
  | none => throw (.lineOutsideFilter g line)

/-- A gate on the window's lines, put back on the lines of the circuit. -/
def liftGate (w : Window) (g : Gate) : Except Fault Gate := do
  let lifted ← g.relabel (elementAt w.filter)
  Circuit.checkGate w.parentLines lifted
  return lifted

/-- A circuit on the window's lines, put back on the lines of the circuit. The other lines are not touched. -/
def expand (w : Window) (replacement : Circuit) : Except Fault Circuit := do
  require (replacement.lines = w.filter.length) (.replacementLineCount replacement.lines w.filter.length)
  return { Circuit.blank w.parentLines with gates := ← replacement.gates.mapM w.liftGate }

end Window

namespace Circuit

/-- The gates from `start` up to `stop` on the lines of `filter`, which must be ascending lines of the
circuit and hold every line that these gates touch. -/
def window (c : Circuit) (start stop : Nat) (filter : List Nat) : Except Fault Window := do
  require (start ≤ stop ∧ stop ≤ c.size) (.gateRange start stop)
  require (filter.Pairwise (· < ·)) (.filterNotIncreasing filter)
  require (∀ line ∈ filter, line < c.lines) .filterOutsideCircuit
  let gates ← ((c.gates.drop start).take (stop - start)).mapM fun g =>
    g.relabel (Window.localLine c.lines filter g)
  return ⟨⟨filter.map c.wire, gates⟩, start, filter, c.lines⟩

/-- The gates from `start` up to `stop` on exactly the lines they touch. -/
def windowOnTouched (c : Circuit) (start stop : Nat) : Except Fault Window := do
  c.window start stop (← c.touchedLines start stop).toList

/-- Puts `replacement`, a circuit on the window's lines, in the place of the gates of the window. -/
def replaceWindow (c : Circuit) (w : Window) (replacement : Circuit) : Except Fault Circuit := do
  require (w.parentLines = c.lines) .windowOfOtherLineCount
  c.splice w.offset w.size (← w.expand replacement)

end Circuit

end Reversible
