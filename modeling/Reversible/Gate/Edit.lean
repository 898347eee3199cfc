import Reversible.Fault

namespace Reversible.Gate

/-- An inverter of `target` under `controls`, none of which may be the target. -/
def controlledNot (controls : List Nat) (target : Nat) : Except Fault Gate := do
  require (target ∉ NatSet.ofList controls) (.targetAmongControls target)
  return toffoli (NatSet.ofList controls) target

def invert (target : Nat) : Except Fault Gate := controlledNot [] target

def cnot (control target : Nat) : Except Fault Gate := controlledNot [control] target

/-- A swap of two distinct targets under `controls`, none of which may be a target. -/
def controlledSwap (controls : List Nat) (first second : Nat) : Except Fault Gate := do
  require (first ≠ second) .equalTargets
  require (first ∉ NatSet.ofList controls ∧ second ∉ NatSet.ofList controls)
    (.targetsAmongControls first second)
  return fredkin (NatSet.ofList controls) first second

def addControl (g : Gate) (line : Nat) : Except Fault Gate := do
  require (g.hasTarget line = false) (.alreadyTarget line)
  return g.withControls (g.controls.insert line)

/-- The gate with its targets passed through `f` and with the given controls in place of its own. -/
def relabelTargets (f : Nat → Except Fault Nat) (controls : NatSet) : Gate → Except Fault Gate
  | toffoli _ t => do return toffoli controls (← f t)
  | fredkin _ a b => do return fredkin controls (← f a) (← f b)

/-- The gate on the lines that `f` assigns to its own, controls first. A control may not be merged with
another control or with a target. Two targets may: a swap of a line with itself changes nothing. -/
def relabel (f : Nat → Except Fault Nat) (g : Gate) : Except Fault Gate := do
  let controls := NatSet.ofList (← g.controls.toList.mapM f)
  require (controls.size = g.controls.size) .controlsMerged
  let mapped ← g.relabelTargets f controls
  require (∀ t ∈ mapped.targets, mapped.hasControl t = false) (.targetMergedWithControl mapped)
  return mapped

end Reversible.Gate
