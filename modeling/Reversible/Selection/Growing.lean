import Reversible.Circuit.Run
import Reversible.Selection.Basic

namespace Reversible

/-- Runs of gates on at most `level` lines, as long as possible. When the circuit has been scanned, it is
scanned again for one line more, up to all but one of its lines. -/
structure Growing where
  level : Nat := 2
  position : Nat := 0
deriving DecidableEq

namespace Growing

/-- The next run on the current level, as a window. -/
def runOnLevel? (s : Growing) (c : Circuit) : Option (Selection Growing) := do
  let (skipped, length, touched) ← Circuit.firstRun? s.level (c.gates.drop s.position)
  let start := s.position + skipped
  let stop := start + length
  return { state := { s with position := stop }, window := some <$> c.window start stop touched.toList }

/-- The next run on this level or on one of the `more` levels above it. -/
def search (c : Circuit) : Nat → Growing → Selection Growing
  | 0, s => (s.runOnLevel? c).getD { state := {}, window := .ok none }
  | more + 1, s =>
    match s.runOnLevel? c with
    | some selection => selection
    | none =>
      let raised := search c more { level := s.level + 1 }
      { raised with events := .levelRaised (s.level + 1) :: raised.events }

def select : Selector Growing := fun s c => search c (c.lines - 1 - s.level) s

end Growing

end Reversible
