import Reversible.Event

namespace Reversible

/-- A circuit or the reason why there is none, with what was reported on the way. -/
structure Synthesis where
  outcome : Except SynthesisError Circuit
  events : List Event := []

/-- Builds a circuit on the input lines of a table, with output `k` on line `order[k]`. -/
abbrev Synthesizer := TruthTable → List Nat → Except Fault Synthesis

namespace Synthesizer

/-- Gives up on every table. -/
def refusing (reason : SynthesisError) : Synthesizer := fun _ _ => return { outcome := .error reason }

/-- Answers every table with an empty circuit, on `extra` lines more than the table has inputs. -/
def blank (extra : Nat) : Synthesizer := fun t _ => return { outcome := .ok (.blank (t.inputs + extra)) }

end Synthesizer

end Reversible
