import Reversible.Synthesis.Embedding
import Reversible.Synthesis.RowGates
import Reversible.Synthesis.Synthesizer

namespace Reversible

/-- Synthesis row by row: every assignment in ascending order is made a fixed point of the permutation by
gates in front of it or behind it. -/
structure Transformation where
  /-- Gates may also stand in front of the permutation, where that takes fewer of them. -/
  bidirectional : Bool := true
  gateLimit : Option Nat := none
  maxLines : Nat := 16

namespace Transformation

/-- The permutation is `front`, then `rest`, then `back`. -/
structure Progress where
  rest : Array Nat
  front : List Gate := []
  back : List Gate := []

namespace Progress

def gates (p : Progress) : List Gate := p.front ++ p.back

/-- What is left to do if gate `g` stands in front of it. -/
def afterGate (f : Array Nat) (g : Gate) : Except Fault (Array Nat) := do
  return (← (List.range f.size).mapM fun r => entryAt f (g.applyTo r)).toArray

/-- Takes gates back in front of what is left to do. -/
def inFront (p : Progress) (gates : List Gate) : Except Fault Progress := do
  return { p with rest := ← gates.reverse.foldlM afterGate p.rest, front := p.front ++ gates.reverse }

/-- Takes gates back behind what is left to do. -/
def behind (p : Progress) (gates : List Gate) : Progress :=
  { p with rest := p.rest.map (gates.foldl Gate.applyTo), back := gates.reverse ++ p.back }

end Progress

/-- The assignment whose output is `x`, if it takes fewer gates to turn `x` into it than into `y`. -/
def source? (s : Transformation) (p : Progress) (x y : Nat) : Except Fault (Option Nat) := do
  if !s.bidirectional then return none
  match p.rest.idxOf? x with
  | none => throw .notAPermutation
  | some source => return if hammingDistance x source < hammingDistance x y then some source else none

/-- Makes `x`, whose output is `y`, a fixed point: in front of the permutation by taking it first to the assignment
whose output it is, or behind the permutation, which is the choice if both take as many gates. -/
def fixRow (s : Transformation) (p : Progress) (x y : Nat) : Except Fault Progress := do
  let next ← match ← s.source? p x y with
    | some source => do p.inFront (← turn x source)
    | none => do pure (p.behind (← turn y x))
  let fixed ← entryAt next.rest x
  require (fixed = x) .rowNotFixed
  return next

def checkLimit (s : Transformation) (gates : Nat) : Except SynthesisError Unit :=
  match s.gateLimit with
  | some limit => if limit < gates then .error (.gateLimitExceeded limit) else .ok ()
  | none => .ok ()

/-- Fixes the given rows one after the other, unless they take more gates than the limit allows. Rows that are fixed
points already are passed by. -/
def fixRows (s : Transformation) (p : Progress) : List Nat → Except Fault (Except SynthesisError Progress)
  | [] => return .ok p
  | x :: rest => do
    let y ← entryAt p.rest x
    if y = x then s.fixRows p rest
    else
      let next ← s.fixRow p x y
      match s.checkLimit next.gates.length with
      | .error e => return .error e
      | .ok () => s.fixRows next rest

/-- A circuit for the permutation of all assignments to `lines` lines that takes `x` to `perm[x]`. -/
def permutation (s : Transformation) (lines : Nat) (perm : Array Nat) :
    Except Fault (Except SynthesisError Circuit) := do
  let size ← assignmentCount lines
  require (perm.size = size) .incompletePermutation
  match ← s.fixRows { rest := perm } (List.range size) with
  | .ok p => return .ok (← Circuit.ofGates lines p.gates)
  | .error e => return .error e

/-- Completes a table to a permutation first. -/
def synthesizer (s : Transformation) : Synthesizer := fun t order => do
  match ← t.embed order s.maxLines with
  | .error e => return { outcome := .error e }
  | .ok perm =>
    match ← s.permutation t.inputs perm with
    | .error e => return { outcome := .error e }
    | .ok c => return { outcome := .ok c, events := [.tableSynthesized t.size t.inputs c.size] }

end Transformation

end Reversible
