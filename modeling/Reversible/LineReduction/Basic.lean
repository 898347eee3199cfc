import Reversible.Circuit.Merge
import Reversible.LineReduction.Specification
import Reversible.LineReduction.Window
import Reversible.Synthesis.Transformation

namespace Reversible

/-- Removes garbage lines. The last gates on such a line are synthesized again so that the line ends with a
known constant, and can then serve in the place of a constant line that is only used later. -/
structure LineReduction where
  /-- How many lines a window touches at first. -/
  windowLines : Nat := 6
  /-- How many lines a window is allowed to touch after it has been grown. -/
  growLimit : Nat := 9
  /-- From how many variables on the gates before a window are not simulated. -/
  variableLimit : Nat := 17
  simulator : Simulator := simulate
  synthesizer : Synthesizer := ({} : Transformation).synthesizer

namespace LineReduction

/-- How many windows were tried, how many lines removed, and how many garbage lines kept for what reason. -/
structure Tally where
  considered : Nat := 0
  removed : Nat := 0
  maxWindowLines : Nat := 0
  ambiguous : Nat := 0
  noConstantLine : Nat := 0
  synthesisFailed : Nat := 0
deriving DecidableEq

def Tally.skip (t : Tally) : SkipReason → Tally
  | .maxWindowLines => { t with maxWindowLines := t.maxWindowLines + 1 }
  | .ambiguous => { t with ambiguous := t.ambiguous + 1 }
  | .noConstantLine => { t with noConstantLine := t.noConstantLine + 1 }
  | .synthesisFailed => { t with synthesisFailed := t.synthesisFailed + 1 }

structure State where
  circuit : Circuit
  /-- The line of the given circuit that each line stands for. -/
  origin : List Nat
  /-- The origins of the garbage lines that are kept. -/
  skipped : NatSet := .empty
  /-- How many lines the next window may touch. -/
  bound : Nat
  tally : Tally := {}
  events : List Event := []

/-- What came of the window of one garbage line. -/
inductive Attempt where
  | reduced (circuit : Circuit) (origin : List Nat)
  | retry
  | unreducible (reason : SkipReason)

def growOrSkip (r : LineReduction) (bound : Nat) (reason : SkipReason) : Attempt :=
  if bound < r.growLimit then .retry else .unreducible reason

/-- The gates before a window, on the lines touched by them or by the window and on those of the window. -/
def windowBefore (c : Circuit) (w : Window) : Except Fault Window :=
  c.window 0 w.offset ((Circuit.linesOf (c.gates.take w.stop)).union w.filter).toList

/-- The states in which the lines of a window can be when its gates begin, or how many variables decide them
if these are too many to go through. -/
def reachable (r : LineReduction) (c : Circuit) (w : Window) : Except Fault (Except Nat NatSet) := do
  if w.offset = 0 then return .ok (← w.circuit.initialStates)
  let before ← windowBefore c w
  let free := before.circuit.freeCount
  if r.variableLimit ≤ free then return .error free
  return .ok (← before.circuit.finalStates r.simulator (w.filter.map before.filter.idxOf))

/-- Puts `replacement` in the place of the window and lets `line` continue as `constantLine`. -/
def mergeInto (s : State) (w : Window) (replacement : Circuit) (constantLine line : Nat) :
    Except Fault Attempt := do
  let rewritten ← s.circuit.replaceWindow w replacement
  let merged ← rewritten.mergeLine constantLine line
  return .reduced merged ((s.origin.set line (s.origin.getD constantLine constantLine)).eraseIdx constantLine)

/-- Tries the window of a garbage line against the constant line it could continue as. -/
def attemptWindow (r : LineReduction) (s : State) (w : Window) (line constantLine : Nat) :
    Except Fault (Attempt × List Event) := do
  let roles := s.circuit.lineRoles w line ((s.circuit.constant constantLine).getD false)
  match ← r.reachable s.circuit w with
  | .error free => return (r.growOrSkip s.bound .maxWindowLines, [.manyVariables w.offset free])
  | .ok inputs =>
    match ← w.circuit.specification r.simulator inputs roles with
    | none => return (r.growOrSkip s.bound .ambiguous, [])
    | some table =>
      let synthesis ← r.synthesizer table (LineRole.order roles)
      match synthesis.outcome with
      | .error reason => return (.unreducible .synthesisFailed, synthesis.events ++ [.lineRefused line reason])
      | .ok replacement =>
        if replacement.lines = w.lines then
          return (← mergeInto s w replacement constantLine line,
            synthesis.events ++ [.lineMerged w.size replacement.size constantLine line])
        else
          return (.unreducible .synthesisFailed,
            synthesis.events ++ [.lineMisfit line replacement.lines w.lines])

def attempt (r : LineReduction) (s : State) (line : Nat) : Except Fault (Attempt × List Event) := do
  if s.circuit.isDead line then
    let dropped ← (s.circuit.filterGates fun g => !g.hasTarget line).dropLine line
    return (.reduced dropped (s.origin.eraseIdx line), [.deadLineDropped line])
  let w ← s.circuit.windowBehind s.bound line
  let found := Event.garbageWindow line w.offset w.stop w.filter
  match s.circuit.lateConstant? line w.stop with
  | none => return (.unreducible .noConstantLine, [found])
  | some constantLine =>
    let (result, events) ← r.attemptWindow s w line constantLine
    return (result, found :: events)

/-- The garbage line that is tried next. -/
def State.next? (s : State) : Option Nat :=
  s.circuit.earliestGarbage? ((List.range s.circuit.lines).filter fun l => s.origin.getD l l ∉ s.skipped)

/-- Tries a garbage line: it is removed, kept, or tried again with a larger window. -/
def step (r : LineReduction) (s : State) (line : Nat) : Except Fault State := do
  let (result, events) ← r.attempt s line
  let tally := { s.tally with considered := s.tally.considered + 1 }
  match result with
  | .reduced circuit origin =>
    return { s with
      circuit, origin, bound := r.windowLines
      tally := { tally with removed := tally.removed + 1 }
      events := s.events ++ events }
  | .retry =>
    return { s with
      tally, bound := s.bound + 1
      events := s.events ++ events ++ [.windowGrown line (s.bound + 1)] }
  | .unreducible reason =>
    return { s with
      tally := tally.skip reason, bound := r.windowLines
      skipped := s.skipped.insert (s.origin.getD line line)
      events := s.events ++ events ++ [.lineSkipped line reason] }

/-- Tries garbage lines until none is left, `steps` times at most. -/
def steps (r : LineReduction) : Nat → State → Except Fault State
  | 0, s => return s
  | n + 1, s =>
    match s.next? with
    | none => return s
    | some line => do r.steps n (← r.step s line)

/-- Every garbage line is settled after the windows from the first size to the last, so the number of steps
is no restriction. -/
def run (r : LineReduction) (c : Circuit) : Except Fault State :=
  r.steps (c.wires.countP (·.garbage) * (1 + (r.growLimit - r.windowLines)))
    { circuit := c, origin := List.range c.lines, bound := r.windowLines }

end LineReduction

end Reversible
