import Reversible.Circuit.Basic

namespace Reversible.Circuit

/-- The number of a line once line `removed` is gone. -/
def closeGap (removed line : Nat) : Nat := if removed < line then line - 1 else line

/-- Where `line` is once `removed` has been merged into `kept`. -/
def mergeTarget (removed kept line : Nat) : Nat := closeGap removed (if line = removed then kept else line)

/-- Removes line `removed` and lets line `kept` take its place: gates on the removed line act on the
kept one, which takes over its output name and its garbage flag. -/
def mergeLine (c : Circuit) (removed kept : Nat) : Except Fault Circuit := do
  require (removed < c.lines) (.noSuchLine removed)
  require (kept < c.lines) (.noSuchLine kept)
  require (removed ≠ kept) .mergedIntoItself
  let gates ← c.gates.mapM fun g =>
    if g.lines.any (removed ≤ ·) then g.relabel fun line => pure (mergeTarget removed kept line) else pure g
  let gone := c.wire removed
  let takeOver (w : Wire) : Wire := { w with output := gone.output, garbage := gone.garbage }
  return ⟨(c.wires.modify kept takeOver).eraseIdx removed, gates⟩

/-- Removes a line that no gate touches. -/
def dropLine (c : Circuit) (line : Nat) : Except Fault Circuit := do
  require (line < c.lines) (.noSuchLine line)
  require (∀ g ∈ c.gates, g.touches line = false) (.lineInUse line)
  let gates ← c.gates.mapM fun g =>
    if line < g.maxLine then g.relabel fun l => pure (closeGap line l) else pure g
  return ⟨c.wires.eraseIdx line, gates⟩

end Reversible.Circuit
