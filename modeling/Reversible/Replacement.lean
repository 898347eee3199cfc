import Reversible.Simulation
import Reversible.Synthesis.Synthesizer

namespace Reversible

/-- Proposes another circuit for the circuit of a window. -/
abbrev Replacement := Circuit → Except Fault Synthesis

namespace Replacement

/-- Synthesizes the table of a window again, unless the window has too many lines. -/
def resynthesis (simulator : Simulator) (synthesizer : Synthesizer) (maxLines : Nat) : Replacement := fun c => do
  if maxLines < c.lines then return { outcome := .error (.tooManyLines c.lines maxLines) }
  synthesizer (← c.truthTable simulator) (List.range c.lines)

/-- The same circuit for every window. -/
def fixed (replacement : Circuit) : Replacement := fun _ => return { outcome := .ok replacement }

/-- No circuit for any window. -/
def refusing (reason : SynthesisError) : Replacement := fun _ => return { outcome := .error reason }

/-- No gates, on `extra` lines more than the window has. -/
def blank (extra : Nat) : Replacement := fun c => return { outcome := .ok (.blank (c.lines + extra)) }

end Replacement

end Reversible
