import Reversible.Circuit.Basic

namespace Reversible.Circuit

/-- How many gates from the head on touch at most `bound` lines together with those of `touched`, and
which lines that makes. The first gate that needs more lines ends the run. -/
def growRun (bound : Nat) (touched : NatSet) : List Gate → Nat × NatSet
  | [] => (0, touched)
  | g :: rest =>
    let extended := touched.union g.lines
    if extended.size ≤ bound then
      let (length, lines) := growRun bound extended rest
      (length + 1, lines)
    else (0, touched)

/-- Whether a gate alone touches more than `bound` lines. -/
def isWide (bound : Nat) (g : Gate) : Bool := decide (bound < (linesOf [g]).size)

/-- Skips the wide gates at the head and takes the run that follows: how many gates are skipped, how many
are taken, and their lines. Without a narrow gate there is no run. -/
def firstRun? (bound : Nat) (gates : List Gate) : Option (Nat × Nat × NatSet) :=
  let skipped := (gates.takeWhile (isWide bound)).length
  match gates.drop skipped with
  | [] => none
  | run => some (skipped, growRun bound .empty run)

end Reversible.Circuit
