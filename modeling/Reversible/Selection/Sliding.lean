import Reversible.Selection.Basic

namespace Reversible

/-- Windows of `length` gates, each `offset` gates after the one before, on the lines they touch. -/
structure Sliding where
  length : Nat := 10
  offset : Nat := 1
  position : Nat := 0
deriving DecidableEq

namespace Sliding

/-- The window at the current position, cut off at the end of the circuit, and the position after it. -/
def slide (s : Sliding) (c : Circuit) : Except Fault (Option Window × Nat) := do
  require (0 < s.length) .zeroWindowLength
  require (0 < s.offset) .zeroWindowOffset
  if c.size ≤ s.position then return (none, 0)
  let w ← c.windowOnTouched s.position (s.position + min s.length (c.size - s.position))
  require (s.position + s.offset < UInt64.size) .overflow
  return (some w, s.position + s.offset)

def select : Selector Sliding := fun s c =>
  match s.slide c with
  | .ok (window, position) => { state := { s with position }, window := .ok window }
  | .error fault => { state := s, window := .error fault }

end Sliding

end Reversible
