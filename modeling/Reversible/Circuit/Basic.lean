import Reversible.Gate.Edit

namespace Reversible

/-- What surrounds one line: its name and, for a constant line, its value on the input side, its name
on the output side, and whether nobody reads the output. -/
structure Wire where
  input : String
  output : String
  constant : Option Bool
  garbage : Bool
deriving DecidableEq

/-- The free wire of line `i`, under the names that lines have until they are given others. -/
def Wire.fresh (i : Nat) : Wire := ⟨s!"i{i}", s!"o{i}", none, false⟩

/-- A bank of lines, line `i` with the wire at position `i`, and the gates that act on it in order. -/
structure Circuit where
  wires : List Wire
  gates : List Gate
deriving DecidableEq

namespace Circuit

/-- The circuit without gates on fresh lines. -/
def blank (lines : Nat) : Circuit := ⟨(List.range lines).map Wire.fresh, []⟩

def lines (c : Circuit) : Nat := c.wires.length

def size (c : Circuit) : Nat := c.gates.length

def wire (c : Circuit) (line : Nat) : Wire := c.wires.getD line (.fresh line)

def constant (c : Circuit) (line : Nat) : Option Bool := (c.wire line).constant

def garbage (c : Circuit) (line : Nat) : Bool := (c.wire line).garbage

/-- Every gate has pairwise distinct lines, all of them lines of the circuit. -/
def WellFormed (c : Circuit) : Prop := ∀ g ∈ c.gates, g.WellFormed c.lines

instance (c : Circuit) : Decidable c.WellFormed := by
  unfold WellFormed
  infer_instance

def gate (c : Circuit) (i : Nat) : Except Fault Gate := elementAt c.gates i

/-- Rewrites the gate at position `i`, which need not stay within the lines of the circuit. -/
def modifyGate (c : Circuit) (i : Nat) (f : Gate → Except Fault Gate) : Except Fault Circuit := do
  let g ← f (← c.gate i)
  return { c with gates := c.gates.set i g }

def checkGate (lines : Nat) (g : Gate) : Except Fault Unit :=
  require (g.maxLine < lines) (.gateOutsideCircuit g lines)

def append (c : Circuit) (g : Gate) : Except Fault Circuit := do
  checkGate c.lines g
  return { c with gates := c.gates ++ [g] }

def insert (c : Circuit) (i : Nat) (g : Gate) : Except Fault Circuit := do
  checkGate c.lines g
  require (i ≤ c.size) .outOfBounds
  return { c with gates := c.gates.insertIdx i g }

def prepend (c : Circuit) (g : Gate) : Except Fault Circuit := c.insert 0 g

/-- Fresh lines with gates that must stay within them. -/
def ofGates (lines : Nat) (gates : List Gate) : Except Fault Circuit := do
  gates.forM (checkGate lines)
  return { blank lines with gates }

def removeGate (c : Circuit) (i : Nat) : Except Fault (Gate × Circuit) := do
  return (← c.gate i, { c with gates := c.gates.eraseIdx i })

/-- Puts the gates of `replacement` in the place of the `count` gates from `offset` on. -/
def replaceGates (c : Circuit) (offset count : Nat) (replacement : List Gate) : Except Fault Circuit := do
  require (offset + count ≤ c.size) .outOfBounds
  return { c with gates := c.gates.take offset ++ replacement ++ c.gates.drop (offset + count) }

def insertCircuit (c : Circuit) (i : Nat) (other : Circuit) : Except Fault Circuit := do
  require (other.lines = c.lines) (.insertedLineCount other.lines c.lines)
  c.replaceGates i 0 other.gates

def appendCircuit (c other : Circuit) : Except Fault Circuit := c.insertCircuit c.size other

def splice (c : Circuit) (offset count : Nat) (replacement : Circuit) : Except Fault Circuit := do
  require (replacement.lines = c.lines) (.replacementNotExpanded c.lines)
  c.replaceGates offset count replacement.gates

/-- The gates from `start` up to `stop` on the same lines. -/
def subcircuit (c : Circuit) (start stop : Nat) : Except Fault Circuit := do
  return { c with gates := ← elementsIn c.gates start stop }

def filterGates (c : Circuit) (keep : Gate → Bool) : Circuit := { c with gates := c.gates.filter keep }

def addLine (c : Circuit) (w : Wire) : Circuit := { c with wires := c.wires ++ [w] }

def modifyWire (c : Circuit) (line : Nat) (f : Wire → Wire) : Except Fault Circuit := do
  let w ← elementAt c.wires line
  return { c with wires := c.wires.set line (f w) }

/-- Gives each wire its entry of a list that has one entry per line. -/
def assignWires {α : Type} (c : Circuit) (f : Wire → α → Wire) (entries : List α) (mismatch : Fault) :
    Except Fault Circuit := do
  require (entries.length = c.lines) mismatch
  return { c with wires := c.wires.zipWith f entries }

def setInputs (c : Circuit) (names : List String) : Except Fault Circuit :=
  c.assignWires (fun w name => { w with input := name }) names (.inputNameCount c.lines)

def setOutputs (c : Circuit) (names : List String) : Except Fault Circuit :=
  c.assignWires (fun w name => { w with output := name }) names (.outputNameCount c.lines)

def setConstants (c : Circuit) (constants : List (Option Bool)) : Except Fault Circuit :=
  c.assignWires (fun w value => { w with constant := value }) constants (.constantCount c.lines)

def setGarbage (c : Circuit) (flags : List Bool) : Except Fault Circuit :=
  c.assignWires (fun w flag => { w with garbage := flag }) flags (.garbageFlagCount c.lines)

/-- The lines that at least one of the gates touches. -/
def linesOf (gates : List Gate) : NatSet := NatSet.ofList (gates.flatMap Gate.lines)

def touchedLines (c : Circuit) (start stop : Nat) : Except Fault NatSet := do
  return linesOf (← elementsIn c.gates start stop)

def isTouched (c : Circuit) (line start stop : Nat) : Except Fault Bool := do
  return (← elementsIn c.gates start stop).any (·.touches line)

def lastIndex? (p : Gate → Bool) (gates : List Gate) : Option Nat :=
  (gates.reverse.findIdx? p).map fun i => gates.length - 1 - i

def firstTouch (c : Circuit) (line : Nat) : Option Nat := c.gates.findIdx? (·.touches line)

def lastTouch (c : Circuit) (line : Nat) : Option Nat := lastIndex? (·.touches line) c.gates

def lastControl (c : Circuit) (line : Nat) : Option Nat := lastIndex? (·.hasControl line) c.gates

/-- The lines that carry an input of the circuit, as no constant is wired to them. -/
def freeLines (c : Circuit) : List Nat := (List.range c.lines).filter fun line => (c.constant line).isNone

def freeCount (c : Circuit) : Nat := c.wires.countP (·.constant.isNone)

end Circuit

end Reversible
