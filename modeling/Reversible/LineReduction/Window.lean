import Reversible.Choice
import Reversible.Circuit.Run
import Reversible.Circuit.Window

namespace Reversible.Circuit

/-- The last gates up to the last one on `line`, as many as touch at most `bound` lines together. -/
def windowBehind (c : Circuit) (bound line : Nat) : Except Fault Window :=
  let stop := match c.lastTouch line with
    | some last => last + 1
    | none => 0
  let (length, touched) := growRun bound .empty (c.gates.take stop).reverse
  c.window (stop - length) stop (touched.insert line).toList

/-- A constant line other than `line` that no gate before position `stop` touches. Among several it is the
first with the latest first use, and one that is never used counts as used after all gates. -/
def lateConstant? (c : Circuit) (line stop : Nat) : Option Nat :=
  let untouched := (List.range c.lines).filter fun l =>
    l != line && (c.constant l).isSome && (c.gates.take stop).all (!·.touches l)
  let firstUse (l : Nat) : Nat := (c.firstTouch l).getD c.size
  firstBest (fun l best => firstUse best < firstUse l) untouched

/-- Whether a line is constant and its gates are all Toffoli gates that target it, so that nothing else
depends on it. -/
def isDead (c : Circuit) (line : Nat) : Bool :=
  (c.constant line).isSome && c.gates.all fun g => !g.touches line || (g.isToffoli && g.hasTarget line)

/-- The garbage line among `lines` whose last control comes first. A line that controls no gate ranks like
one whose only control is the first gate. -/
def earliestGarbage? (c : Circuit) (lines : List Nat) : Option Nat :=
  let lastUse (l : Nat) : Nat := (c.lastControl l).getD 0
  firstBest (fun l best => lastUse l < lastUse best) (lines.filter c.garbage)

end Reversible.Circuit
