import Reversible.Fault

namespace Reversible

/-- One bit per line, packed into 64-bit words: bit `i` is bit `i % 64` of word `i / 64`. -/
structure Bits where
  words : List UInt64
  width : Nat
deriving DecidableEq

namespace Bits

def zero (width : Nat) : Bits := ⟨List.replicate ((width + 63) / 64) 0, width⟩

instance : Inhabited Bits := ⟨zero 0⟩

/-- The word with the single bit `i % 64`. -/
def mask (i : Nat) : UInt64 := 1 <<< (i % 64).toUInt64

/-- Clears what the last word stores at or above the width. -/
def clearTail (b : Bits) : Bits :=
  if b.width % 64 = 0 then b
  else { b with words := b.words.modify (b.words.length - 1) (· &&& (mask b.width - 1)) }

/-- The low bits of `value`; those at or above the width are left out. -/
def ofWord (width : Nat) (value : UInt64) : Bits :=
  clearTail { zero width with words := (zero width).words.modify 0 fun _ => value }

/-- The word with these bits, which must be at most 64. -/
def toWord (b : Bits) : Except Fault UInt64 := do
  require (b.width ≤ 64) (.tooWideForWord b.width)
  return b.words.headD 0

/-- The stored bit at any position, zero past the last word. -/
def testBit (b : Bits) (i : Nat) : Bool := b.words.getD (i / 64) 0 &&& mask i != 0

/-- Stores a bit at a position that a word reaches. -/
def put (b : Bits) (i : Nat) (value : Bool) : Bits :=
  { b with words := b.words.modify (i / 64) fun w => if value then w ||| mask i else w &&& ~~~(mask i) }

def get (b : Bits) (i : Nat) : Except Fault Bool := do
  require (i < b.width) (.bitOutOfRange i b.width)
  return b.testBit i

def set (b : Bits) (i : Nat) (value : Bool) : Except Fault Bits := do
  require (i < b.width) (.bitOutOfRange i b.width)
  return b.put i value

def flip (b : Bits) (i : Nat) : Except Fault Bits := do
  require (i < b.width) (.bitOutOfRange i b.width)
  return { b with words := b.words.modify (i / 64) (· ^^^ mask i) }

/-- Exchanges two bits. -/
def swap (b : Bits) (i j : Nat) : Except Fault Bits := do
  let atI ← b.get i
  let atJ ← b.get j
  (← b.set i atJ).set j atI

/-- Whether every listed bit is one. The first zero decides, so what is listed after it is not looked at. -/
def allSet (b : Bits) : List Nat → Except Fault Bool
  | [] => return true
  | i :: rest => do if ← b.get i then b.allSet rest else return false

def toBools (b : Bits) : List Bool := (List.range b.width).map b.testBit

def ofBools (bits : List Bool) : Bits :=
  bits.zipIdx.foldl (fun b (value, i) => b.put i value) (zero bits.length)

/-- `w &&& (w - 1)` is `w` without its lowest one. -/
theorem and_pred_lt {w : UInt64} (some : w ≠ 0) : (w &&& (w - 1)).toNat < w.toNat := by
  have positive : 0 < w.toNat := Nat.pos_of_ne_zero fun none => some (UInt64.toNat_inj.mp none)
  have one : 1 ≤ w := UInt64.le_iff_toNat_le.mpr positive
  rw [UInt64.toNat_and, UInt64.toNat_sub_of_le _ _ one]
  exact Nat.lt_of_le_of_lt Nat.and_le_right (Nat.sub_lt positive Nat.one_pos)

/-- The positions of the ones of a word, ascending: the lowest one is taken off until none is left. -/
def wordOnes (w : UInt64) : List Nat :=
  if none : w = 0 then [] else w.toBitVec.ctz.toNat :: wordOnes (w &&& (w - 1))
termination_by w.toNat
decreasing_by exact and_pred_lt none

/-- The positions of the ones, read word by word. -/
def ones (b : Bits) : List Nat := b.words.zipIdx.flatMap fun (w, j) => (wordOnes w).map (64 * j + ·)

def popcount (b : Bits) : Nat := b.words.foldr (fun w count => w.toBitVec.cpop.toNat + count) 0

/-- Words compare from the low word up, and a shorter list of equal words comes first. -/
def compareWords : List UInt64 → List UInt64 → Ordering
  | [], [] => .eq
  | [], _ :: _ => .lt
  | _ :: _, [] => .gt
  | v :: vs, w :: ws => (Ord.compare v w).then (compareWords vs ws)

/-- The words decide, and only between equal words the width. -/
def compare (a b : Bits) : Ordering := (compareWords a.words b.words).then (Ord.compare a.width b.width)

/-- The bits as `0` and `1`, bit 0 first. -/
def text (b : Bits) : String := String.ofList (b.toBools.map fun bit => if bit then '1' else '0')

def debugText (b : Bits) : String := s!"BitSet({b.text})"

end Bits

end Reversible
