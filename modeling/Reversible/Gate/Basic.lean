import Reversible.NatSet

namespace Reversible

/-- A reversible gate. A Toffoli gate inverts its target, a Fredkin gate swaps its two targets, in
both cases exactly when every control line holds one. -/
inductive Gate where
  | toffoli (controls : NatSet) (target : Nat)
  | fredkin (controls : NatSet) (first second : Nat)
deriving DecidableEq

/-- Numbers in brackets, as in `[0, 2]`. -/
def bracketed (xs : List Nat) : String := "[" ++ ", ".intercalate (xs.map toString) ++ "]"

namespace Gate

def controls : Gate → NatSet
  | toffoli cs _ => cs
  | fredkin cs _ _ => cs

def targets : Gate → List Nat
  | toffoli _ t => [t]
  | fredkin _ a b => [a, b]

/-- The lines a gate touches, controls first. -/
def lines (g : Gate) : List Nat := g.controls.toList ++ g.targets

def isToffoli : Gate → Bool
  | toffoli .. => true
  | fredkin .. => false

def hasControl (g : Gate) (line : Nat) : Bool := decide (line ∈ g.controls)

def hasTarget (g : Gate) (line : Nat) : Bool := g.targets.contains line

def touches (g : Gate) (line : Nat) : Bool := g.hasControl line || g.hasTarget line

def maxLine (g : Gate) : Nat := g.lines.foldl max 0

/-- A gate has at least one target, so the least line it touches is at most its first target. -/
def minLine : Gate → Nat
  | toffoli cs t => cs.toList.foldl min t
  | fredkin cs a b => cs.toList.foldl min (min a b)

/-- The same gate under another set of controls. -/
def withControls (cs : NatSet) : Gate → Gate
  | toffoli _ t => toffoli cs t
  | fredkin _ a b => fredkin cs a b

def removeControl (g : Gate) (line : Nat) : Gate := g.withControls (g.controls.erase line)

/-- The lines of a gate are pairwise distinct and below `lines`. -/
def WellFormed (lines : Nat) (g : Gate) : Prop := g.lines.Nodup ∧ ∀ line ∈ g.lines, line < lines

instance (lines : Nat) (g : Gate) : Decidable (g.WellFormed lines) := by
  unfold WellFormed
  infer_instance

/-- The written form, as in `T({0, 2} -> 1)` and `F({0} -> 1, 2)`. -/
def text (g : Gate) : String :=
  let kind := if g.isToffoli then "T" else "F"
  kind ++ "(\x7b" ++ ", ".intercalate (g.controls.toList.map toString) ++ "\x7d -> "
    ++ ", ".intercalate (g.targets.map toString) ++ ")"

end Gate

end Reversible
