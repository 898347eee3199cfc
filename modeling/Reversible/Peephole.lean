import Reversible.Cost
import Reversible.Replacement
import Reversible.Selection.Basic

namespace Reversible

/-- Improves a circuit window by window: a window is replaced where that lowers its cost. -/
structure Peephole (σ : Type) where
  select : Selector σ
  replacement : Replacement
  cost : CostModel

namespace Peephole

/-- How many windows were looked at and how many replaced, and the old and new cost of the latter. -/
structure Report where
  considered : Nat := 0
  replaced : Nat := 0
  replacements : List (UInt64 × UInt64) := []
  events : List Event := []

/-- What the replacements save together. -/
def Report.saving (r : Report) : Except Fault UInt64 :=
  r.replacements.foldlM (fun total (old, new) => checkedAdd total (old - new)) 0

structure State (σ : Type) where
  selector : σ
  circuit : Circuit
  report : Report := {}

/-- Replaces a window by `candidate` if that has as many lines and costs less. -/
def accept {σ : Type} (o : Peephole σ) (s : State σ) (w : Window) (candidate : Circuit) :
    Except Fault (State σ) := do
  if candidate.lines ≠ w.lines then
    return { s with
      report.events := s.report.events ++ [.windowMisfit w.offset w.stop candidate.lines w.lines] }
  let old ← o.cost.circuitCost w.circuit
  let new ← o.cost.circuitCost candidate
  if new < old then
    return { s with
      circuit := ← s.circuit.replaceWindow w candidate
      report.replaced := s.report.replaced + 1
      report.replacements := s.report.replacements ++ [(old, new)]
      report.events := s.report.events ++ [.windowReplaced w.offset w.stop w.filter old new] }
  return s

/-- Deals with one window. -/
def visit {σ : Type} (o : Peephole σ) (s : State σ) (w : Window) : Except Fault (State σ) := do
  let s := { s with report.considered := s.report.considered + 1 }
  let synthesis ← o.replacement w.circuit
  let s := { s with report.events := s.report.events ++ synthesis.events }
  match synthesis.outcome with
  | .error reason =>
    return { s with report.events := s.report.events ++ [.windowRefused w.offset w.stop reason] }
  | .ok candidate => o.accept s w candidate

/-- Takes the next window and deals with it. The answer says whether there was one. -/
def step {σ : Type} (o : Peephole σ) (s : State σ) : Except Fault (State σ × Bool) := do
  let selection := o.select s.selector s.circuit
  let window? ← selection.window
  let s := { s with selector := selection.state, report.events := s.report.events ++ selection.events }
  match window? with
  | none => return (s, false)
  | some w => return (← o.visit s w, true)

/-- Takes windows until none is left. There is no answer if that is not so after `steps` windows. -/
def steps {σ : Type} (o : Peephole σ) : Nat → State σ → Except Fault (Option (State σ))
  | 0, _ => return none
  | n + 1, s => do
    let (s, more) ← o.step s
    if more then o.steps n s else return some s

/-- More windows than a run can ever deal with. -/
def stepLimit : Nat := UInt64.size

def run {σ : Type} (o : Peephole σ) (selector : σ) (c : Circuit) : Except Fault (Option (State σ)) :=
  o.steps stepLimit { selector, circuit := c }

end Peephole

end Reversible
