import Reversible.Choice
import Reversible.Cost
import Reversible.Enumeration
import Reversible.Event

namespace Reversible

/-- Computes the conjunction of controls that consecutive Toffoli gates share, a factor, once onto a helper
line, which then serves those gates as a single control. -/
structure Factoring where
  helperLines : Nat := 1
  cost : CostModel := CostModel.quantum

/-- The gate with a control on `helper` in the place of the controls of `factor`, if it has all of them. -/
def Gate.factorOut (factor : List Nat) (helper : Nat) (g : Gate) : Except Fault Gate :=
  if factor.all g.hasControl then (factor.foldl Gate.removeControl g).addControl helper else pure g

namespace Factoring

/-- A factor with the gates it is taken out of, and what that saves. -/
structure Factored where
  factor : List Nat
  run : List Gate
  gates : List Gate
  saving : UInt64

/-- Gates that a factor reaches across: Toffoli gates that leave its lines alone. -/
def isReached (factor : List Nat) (g : Gate) : Bool := g.isToffoli && factor.all (!g.hasTarget ·)

/-- A run with the factor taken out, between the gate that computes the factor and its repetition, which
clears the helper line again. -/
def rewriteRun (lines : Nat) (factor : List Nat) (helper : Nat) (run : List Gate) : Except Fault (List Gate) := do
  let rewritten ← run.mapM (Gate.factorOut factor helper)
  let bracket ← Gate.controlledNot factor helper
  Circuit.checkGate lines bracket
  return bracket :: rewritten ++ [bracket]

/-- Takes a factor out of a run if that lowers its cost. -/
def factor? (cost : CostModel) (c : Circuit) (helper : Nat) (factor : List Nat) (run : List Gate) :
    Except Fault (Option Factored) := do
  let gates ← rewriteRun c.lines factor helper run
  let old ← cost.circuitCost { c with gates := run }
  let new ← cost.circuitCost { c with gates }
  return if new < old then some ⟨factor, run, gates, old - new⟩ else none

/-- The controls whose positions are ones of `mask`. -/
def subset (controls : List Nat) (mask : Nat) : List Nat :=
  (controls.zipIdx.filter fun (_, i) => mask.testBit i).map (·.1)

/-- The factor that saves most among those of at least two controls of the Toffoli gate `g`, each taken out
of the longest run of gates from `g` on that it reaches. A gate that targets one of its own controls is not
reached, and on an empty run nothing can be saved. -/
def best? (cost : CostModel) (c : Circuit) (helper : Nat) (g : Gate) (rest : List Gate) :
    Except Fault (Option Factored) := do
  let controls := g.controls.toList
  require (controls.length < 64) .tooManyControls
  foldFrom
    (fun best mask => do
      let factor := subset controls mask
      if factor.length ≤ 1 ∨ isReached factor g = false then return best
      match ← factor? cost c helper factor (g :: rest.takeWhile (isReached factor)) with
      | some f => return prefer (fun f b => b.saving < f.saving) best f
      | none => return best)
    1 ((1 <<< controls.length) - 1) none

/-- What has been done: the helper lines added, the factors taken out, and what they save. -/
structure Report where
  helperLines : Nat := 0
  factors : Nat := 0
  saving : UInt64 := 0
  events : List Event := []

/-- The gates that a scan has put behind it, and where among them the helper line was last cleared. -/
structure Scan where
  gates : List Gate := []
  lastClearing : Option Nat := none
  report : Report

def Scan.keep (s : Scan) (g : Gate) : Scan := { s with gates := s.gates ++ [g] }

def Scan.apply (s : Scan) (helper : Nat) (f : Factored) : Except Fault Scan := do
  let start := s.gates.length
  let saving ← checkedAdd s.report.saving f.saving
  return {
    gates := s.gates ++ f.gates
    lastClearing := some (start + f.run.length + 1)
    report := { s.report with
      factors := s.report.factors + 1
      saving
      events := s.report.events ++ [.factored f.factor helper start (start + f.run.length) f.saving] } }

/-- Goes through the gates and takes out the best factor of each, then goes on after its run. The gates of
a run are behind the scan already, so as many gates are skipped. -/
def scan (cost : CostModel) (c : Circuit) (helper : Nat) : Nat → Scan → List Gate → Except Fault Scan
  | _, s, [] => return s
  | skip + 1, s, _ :: rest => scan cost c helper skip s rest
  | 0, s, g :: rest => do
    if !g.isToffoli then scan cost c helper 0 (s.keep g) rest
    else
      match ← best? cost c helper g rest with
      | none => scan cost c helper 0 (s.keep g) rest
      | some f => scan cost c helper (f.run.length - 1) (← s.apply helper f) rest

/-- Adds a helper line and scans once. The helper line is garbage, so the gate that clears it for the last
time is left out. -/
def addHelper (cost : CostModel) (c : Circuit) (report : Report) : Except Fault (Circuit × Report) := do
  let extended := c.addLine ⟨"helper", "helper", some false, true⟩
  let start : Scan := { report := { report with helperLines := report.helperLines + 1 } }
  let s ← scan cost extended c.lines 0 start c.gates
  return ({ extended with gates := s.lastClearing.elim s.gates s.gates.eraseIdx }, s.report)

def addHelpers (cost : CostModel) : Nat → Circuit → Report → Except Fault (Circuit × Report)
  | 0, c, report => return (c, report)
  | n + 1, c, report => do
    let (c, report) ← addHelper cost c report
    addHelpers cost n c report

def run (f : Factoring) (c : Circuit) : Except Fault (Circuit × Report) := addHelpers f.cost f.helperLines c {}

end Factoring

end Reversible
