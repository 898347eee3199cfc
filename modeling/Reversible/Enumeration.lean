import Reversible.Fault

namespace Reversible

/-- The first of the `count` numbers from `start` on that satisfies `p`. -/
def firstFrom (p : Nat → Bool) (start : Nat) : Nat → Option Nat
  | 0 => none
  | count + 1 => if p start then some start else firstFrom p (start + 1) count

/-- Whether the `count` numbers from `start` on all pass a test that can fail. The first that does not pass
decides. -/
def allFrom (p : Nat → Except Fault Bool) (start : Nat) : Nat → Except Fault Bool
  | 0 => return true
  | count + 1 => do if ← p start then allFrom p (start + 1) count else return false

/-- Folds over the `count` numbers from `start` on, up to the first fault. -/
def foldFrom {α : Type} (f : α → Nat → Except Fault α) (start : Nat) : Nat → α → Except Fault α
  | 0, a => return a
  | count + 1, a => do foldFrom f (start + 1) count (← f a start)

/-- Nothing but laziness sets the enumerations apart from those of a list. -/
theorem firstFrom_eq_find? (p : Nat → Bool) (start count : Nat) :
    firstFrom p start count = (List.range' start count).find? p := by
  induction count generalizing start with
  | zero => rfl
  | succ count ih =>
    rw [List.range'_succ, List.find?_cons]
    unfold firstFrom
    cases p start
    · exact ih _
    · rfl

theorem allFrom_eq_allM (p : Nat → Except Fault Bool) (start count : Nat) :
    allFrom p start count = (List.range' start count).allM p := by
  induction count generalizing start with
  | zero => rfl
  | succ count ih =>
    rw [List.range'_succ, List.allM]
    unfold allFrom
    refine bind_congr fun passed => ?_
    cases passed
    · rfl
    · exact ih _

end Reversible
