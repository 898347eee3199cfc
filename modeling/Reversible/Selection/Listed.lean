import Reversible.Selection.Basic

namespace Reversible

/-- A range of gates, on the given lines or else on those it touches. -/
structure WindowRange where
  start : Nat
  stop : Nat
  filter : Option (List Nat)

def WindowRange.window (r : WindowRange) (c : Circuit) : Except Fault Window :=
  match r.filter with
  | some filter => c.window r.start r.stop filter
  | none => c.windowOnTouched r.start r.stop

/-- The windows of a fixed list of ranges. -/
structure Listed where
  ranges : List WindowRange
  position : Nat := 0

/-- A range that is no window of the circuit counts as taken. -/
def Listed.select : Selector Listed := fun s c =>
  match s.ranges[s.position]? with
  | some r => { state := { s with position := s.position + 1 }, window := some <$> r.window c }
  | none => { state := { s with position := 0 }, window := .ok none }

end Reversible
