import Reversible.Circuit.Basic

namespace Reversible

/-- The sum of two costs, or the largest word where the sum does not fit one. -/
def saturatingAdd (a b : UInt64) : UInt64 := UInt64.ofNat (min (a.toNat + b.toNat) (UInt64.size - 1))

/-- The sum of two costs that must fit a word. -/
def checkedAdd (a b : UInt64) : Except Fault UInt64 := do
  require (a.toNat + b.toNat < UInt64.size) .overflow
  return a + b

/-- What gates and circuits cost. The cost of a gate may depend on the number of lines around it. -/
structure CostModel where
  gateCost : Gate → Nat → Except Fault UInt64
  circuitCost : Circuit → Except Fault UInt64

namespace CostModel

/-- A circuit costs what its gates cost together, as far as a word can count. -/
def ofGateCost (gateCost : Gate → Nat → Except Fault UInt64) : CostModel where
  gateCost := gateCost
  circuitCost c := c.gates.foldlM (fun total g => return saturatingAdd total (← gateCost g c.lines)) 0

/-- Every gate costs one. -/
def gateCount : CostModel := ofGateCost fun _ _ => pure 1

/-- A circuit costs its number of lines and its gates cost nothing. -/
def lineCount : CostModel where
  gateCost _ _ := pure 0
  circuitCost c := pure c.lines.toUInt64

/-- Eight transistors per control line. -/
def transistors : CostModel := ofGateCost fun g _ => pure (8 * g.controls.size.toUInt64)

/-- A gate with `k` controls costs entry `k`, and the last entry where there are fewer. -/
def weighted (weights : List UInt64) : CostModel :=
  ofGateCost fun g _ => elementAt weights (min g.controls.size (weights.length - 1))

/-- The quantum cost of a Toffoli gate with at least ten controls. Without a free line it is
`2 ^ (controls + 1) - 3`, or the largest word where a word does not reach that power. The exponent is
counted in 32 bits. -/
def manyControls (controls free : Nat) : Except Fault UInt64 := do
  if controls - 2 ≤ free then
    require (12 * controls < UInt64.size) .overflow
    return (12 * controls - 22).toUInt64
  else if 1 ≤ free then
    require (24 * controls < UInt64.size) .overflow
    return (24 * controls - 87).toUInt64
  else
    let exponent := controls % UInt32.size + 1
    require (exponent < UInt32.size) .overflow
    if 64 ≤ exponent then return UInt64.ofNat (UInt64.size - 1)
    require (3 ≤ 1 <<< exponent) .overflow
    return ((1 <<< exponent) - 3).toUInt64

/-- The quantum cost of a Toffoli gate with `free` lines that are neither control nor target. -/
def toffoli (controls free : Nat) : Except Fault UInt64 :=
  let byFreeLines (many few no : UInt64) : Except Fault UInt64 :=
    pure (if controls - 2 ≤ free then many else if 1 ≤ free then few else no)
  match controls with
  | 0 | 1 => pure 1
  | 2 => pure 5
  | 3 => pure 13
  | 4 => pure (if 2 ≤ free then 26 else 29)
  | 5 => byFreeLines 38 52 61
  | 6 => byFreeLines 50 80 125
  | 7 => byFreeLines 62 100 253
  | 8 => byFreeLines 74 128 509
  | 9 => byFreeLines 86 152 1021
  | _ => manyControls controls free

/-- The quantum cost of a gate among `lines` lines. A controlled swap is a Toffoli gate with one control
more between two gates with one control each. -/
def quantumGate (lines : Nat) : Gate → Except Fault UInt64
  | .toffoli cs _ => toffoli cs.size (lines - (cs.size + 1))
  | .fredkin cs _ _ => do checkedAdd (← toffoli (cs.size + 1) (lines - (cs.size + 2))) 2

def quantum : CostModel := ofGateCost fun g lines => quantumGate lines g

end CostModel

end Reversible
