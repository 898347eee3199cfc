import Reversible.Circuit.Basic

namespace Reversible

/-- The characters of a drawing, and whether rows begin and end with the names of their line. -/
structure DrawingStyle where
  control : Char := '*'
  target : Char := 'O'
  swap : Char := 'X'
  crossing : Char := '+'
  wire : Char := '-'
  showNames : Bool := true

/-- What a gate looks like on one line. -/
def Gate.cell (style : DrawingStyle) (line : Nat) (g : Gate) : Char :=
  if g.hasControl line then style.control
  else if g.hasTarget line then if g.isToffoli then style.target else style.swap
  else if g.minLine < line ∧ line < g.maxLine then style.crossing
  else style.wire

namespace Wire

/-- A constant line shows its value in place of its name. -/
def shownInput (w : Wire) : String :=
  match w.constant with
  | some value => if value then "1" else "0"
  | none => w.input

def shownOutput (w : Wire) : String := if w.garbage then "-" else w.output

end Wire

/-- Blanks in front of a text up to `width` characters. -/
def padLeft (width : Nat) (s : String) : String := String.ofList (List.replicate (width - s.length) ' ') ++ s

namespace Circuit

/-- The names column is as wide as the longest name has bytes, while names fill it by characters. -/
def nameWidth (c : Circuit) : Nat := (c.wires.map fun w => w.shownInput.utf8ByteSize).foldl max 0

/-- A line without its names: every gate is one cell, and the wire shows before and after it. -/
def drawnWire (style : DrawingStyle) (gates : List Gate) (line : Nat) : String :=
  String.ofList (style.wire :: gates.flatMap fun g => [g.cell style line, style.wire])

def drawnLine (c : Circuit) (style : DrawingStyle) (line : Nat) (w : Wire) : String :=
  let wire := drawnWire style c.gates line
  if style.showNames then padLeft c.nameWidth w.shownInput ++ " " ++ wire ++ " " ++ w.shownOutput else wire

/-- The drawing of a circuit, one row per line. -/
def diagram (c : Circuit) (style : DrawingStyle := {}) : String :=
  String.join (c.wires.mapIdx fun line w => c.drawnLine style line w ++ "\n")

end Circuit

end Reversible
